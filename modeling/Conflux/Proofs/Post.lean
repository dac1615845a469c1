import Conflux.Proofs.Decoding
import Conflux.Proofs.Fragment
import Conflux.Proofs.Json.Compact
import Conflux.Proofs.Message
import Conflux.Proofs.Version

/-!
An envelope is sent as a message that was made of it. Every message is read back as it was
written, whatever is in it. Of the envelope inside, a hub may read something else than was
written, or nothing at all: records may be nested too deep for it, or have numbers that it
rounds. But if it reads anything, the source, the type and the version are those of the
envelope that was sent, as they stand in front of the records.
-/

namespace Conflux

namespace Envelope

variable {e d : Envelope}

/-- What is written of an envelope in front of its records. -/
def texts (e : Envelope) : List (String × String) :=
  [("specversion", e.specVersion), ("type", e.bundleType), ("source", e.source), ("id", e.id),
    ("time", e.time.text), ("version", e.version.text)]

/-- What one of these texts is read as. -/
def textMeaning? (name t : String) : Option (Field String) :=
  if name = "time" then (Time.parse? t).map .time
  else if name = "version" then some (.version t)
  else some (.text t)

theorem field_text {name : String} (hdependency : name ≠ "dependencyversion")
    (hdata : name ≠ "data") (t : String) (rest : Bytes) :
    field some name (Json.quote t ++ rest) = (textMeaning? name t).map fun x => (x, rest) := by
  have hstring : Json.string? (Json.quote t ++ rest) = some (t, rest) :=
    Json.string?_of_quote (Json.skipBlank_quote t rest)
  rw [field, textMeaning?]
  by_cases htime : name = "time"
  · simp only [if_pos htime, meaning?, hstring, Option.bind_eq_bind, Option.bind_some]
    cases Time.parse? t <;> rfl
  · by_cases hversion : name = "version"
    · simp only [if_neg htime, if_pos hversion, meaning?, hstring, Option.bind_eq_bind,
        Option.bind_some, Option.map_some]
    · rw [if_neg htime, if_neg hversion, if_neg hdependency, if_neg hdata, if_neg htime,
        if_neg hversion, hstring]
      rfl

/-- The fields of a document begin with what is read of these texts. -/
theorem fields_of_record? {fields : List (String × Field String)} {r : Bytes}
    (h : Json.record? fieldNames (field some) e.encode = some (fields, r)) :
    ∃ time more, fields = [("specversion", .text e.specVersion), ("type", .text e.bundleType),
      ("source", .text e.source), ("id", .text e.id), ("time", .time time),
      ("version", .version e.version.text)] ++ more := by
  obtain ⟨m, ms, hwritten⟩ : ∃ m ms,
      e.toJson = .object (e.texts.map (fun f => (f.1, .string f.2)) ++ m :: ms) := by
    rw [toJson]
    cases e.dependencyVersion with
    | none => exact ⟨_, _, rfl⟩
    | some v => exact ⟨_, _, rfl⟩
  rw [encode, hwritten, ← List.append_nil (Json.compact _)] at h
  have hnames : ∀ f ∈ e.texts, f.1 ∈ fieldNames := by simp [texts, fieldNames]
  have hfield : ∀ f ∈ e.texts, ∀ rest, field some f.1 (Json.quote f.2 ++ rest) =
      (textMeaning? f.1 f.2).map fun x => (x, rest) := by
    simp [texts, field_text]
  obtain ⟨known, more, hknown, rfl⟩ :=
    Json.record?_front e.texts textMeaning? hnames hfield (List.cons_ne_nil _ _) h
  cases htime : Time.parse? e.time.text with
  | none => simp [texts, textMeaning?, htime] at hknown
  | some time =>
      have hmeanings : e.texts.mapM (fun f => (textMeaning? f.1 f.2).map (f.1, ·)) =
          some [("specversion", .text e.specVersion), ("type", .text e.bundleType),
            ("source", .text e.source), ("id", .text e.id), ("time", .time time),
            ("version", .version e.version.text)] := by
        simp [texts, textMeaning?, htime]
      rw [hmeanings] at hknown
      obtain rfl := Option.some.inj hknown
      exact ⟨time, more, rfl⟩

theorem scan?_encode {raw : EnvelopeOf String} {r : Bytes}
    (h : scan? some e.encode = some (raw, r)) :
    raw.source = e.source ∧ raw.bundleType = e.bundleType ∧ raw.version = e.version.text := by
  rw [scan?] at h
  obtain ⟨⟨fields, r'⟩, hrecord, h⟩ := Option.bind_eq_some_iff.1 h
  obtain ⟨x, hx, hsome⟩ := Option.bind_eq_some_iff.1 h
  cases hsome
  obtain ⟨time, more, rfl⟩ := fields_of_record? hrecord
  have ht := ofFields?_eq_some_iff.1 hx
  exact ⟨(Option.some.inj ht.source).symm, (Option.some.inj ht.bundleType).symm,
    (Field.version.inj (Option.some.inj ht.version)).symm⟩

theorem parseVersions_ok {raw : EnvelopeOf String} (h : parseVersions raw = .ok d) :
    d.source = raw.source ∧ d.bundleType = raw.bundleType ∧
      Version.parse raw.version = .ok d.version := by
  have hparsed := toOption_parseVersions raw
  rw [h] at hparsed
  obtain ⟨-, htype, hsource, -, -, hversion, -⟩ := withVersions?_eq_some_iff.1 hparsed.symm
  refine ⟨hsource.symm, htype.symm, ?_⟩
  cases hv : Version.parse raw.version with
  | error err => simp [hv, Except.toOption] at hversion
  | ok v => simpa [hv, Except.toOption] using hversion

/-- Whatever a hub reads, it has the source, the type and the version that were written. -/
theorem decode_encode (h : decode e.encode = .ok d) :
    d.source = e.source ∧ d.bundleType = e.bundleType ∧ d.version = e.version := by
  rw [decode] at h
  split at h
  · cases h
  · next raw hraw =>
      obtain ⟨r, hscan⟩ : ∃ r, scan? some e.encode = some (raw, r) := by
        rw [readWith?, Json.whole?] at hraw
        split at hraw
        · next x r hscan =>
            split at hraw
            · cases hraw
              exact ⟨r, hscan⟩
            · cases hraw
        · cases hraw
      obtain ⟨hsource, htype, hversion⟩ := scan?_encode hscan
      cases hparsed : parseVersions raw with
      | error x =>
          rw [hparsed] at h
          cases h
      | ok d' =>
          rw [hparsed] at h
          cases h
          obtain ⟨hsource', htype', hparse⟩ := parseVersions_ok hparsed
          rw [hversion, Version.parse_text] at hparse
          exact ⟨hsource'.trans hsource, htype'.trans htype, (Except.ok.inj hparse).symm⟩

end Envelope

variable [Compression]

structure Post extends Sending where
  envelope : Envelope
  made : ∃ destination, message = .ofEnvelope envelope destination

namespace Post

variable {p : Post}

/-- A hub can tell where the bundle belongs: the source has a name, and the document can be
read. It cannot if, for one thing, the records are nested too deep. -/
def legible (p : Post) : Bool :=
  p.envelope.source != "" && (Envelope.decode p.envelope.encode).toOption.isSome

theorem legible_iff : p.legible = true ↔
    p.envelope.source ≠ "" ∧ ∃ d, Envelope.decode p.envelope.encode = .ok d := by
  rw [legible, Bool.and_eq_true, bne_iff_ne]
  cases Envelope.decode p.envelope.encode <;> simp [Except.toOption]

/-- The bundle that a hub finds in the message is what it reads of the envelope. -/
theorem bundle?_eq_some_iff {d : Envelope} : Pipeline.bundle? p.message = some d ↔
    p.envelope.source ≠ "" ∧ Envelope.decode p.envelope.encode = .ok d := by
  obtain ⟨destination, hmade⟩ := p.made
  rw [hmade, Pipeline.bundle?_eq_some_iff, Message.open?_eq_ok_iff, Message.source?_eq_some_iff]
  constructor
  · rintro ⟨⟨_, hd, _⟩, hnamed, _⟩
    rw [← (Envelope.decode_encode hd).1]
    exact ⟨hnamed, hd⟩
  · rintro ⟨hnamed, hd⟩
    obtain ⟨hsource, htype, hversion⟩ := Envelope.decode_encode hd
    rw [hsource, htype, hversion]
    exact ⟨⟨Version.parse_text p.envelope.version, hd, rfl⟩, hnamed, rfl⟩

end Post

end Conflux

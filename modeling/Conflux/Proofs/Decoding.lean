import Conflux.Envelope
import Conflux.Proofs.Json.Refined
import Mathlib.Data.Option.Basic

/-!
The two ways of reading an envelope come to the same. Whether the versions are parsed on the way
or afterwards, every document gives the same envelope or none: the reader that parses them refines
the fields of the one that leaves them as texts, and what is refined in the fields can as well be
refined in the envelope. What the two ways differ in is the reason that is told when there is none.
-/

namespace Conflux

namespace Envelope

open Json (Scan refined onValue)

variable {ν : Type} {version? : String → Option ν} {fields : List (String × Field String)}

/-! ### Fields -/

def Field.parsed? (version? : String → Option ν) : Field String → Option (Field ν)
  | .text s => some (.text s)
  | .time t => some (.time t)
  | .version v => (version? v).map .version
  | .dependency v => (v.mapM version?).map .dependency
  | .data items => some (.data items)

theorem meaning?_eq_refined (version? : String → Option ν) :
    meaning? version? = refined version? (meaning? some) := by
  funext s
  rw [meaning?, refined, meaning?]
  cases Json.string? s with
  | none => rfl
  | some p => cases hv : version? p.1 <;> simp [hv]

theorem nullable?_refined {α β : Type} (f : α → Option β) (scan : Scan α) :
    Json.nullable? (refined f scan) = refined (Option.mapM f) (Json.nullable? scan) := by
  funext s
  rw [refined, Json.nullable?, Json.nullable?]
  split
  · cases Json.word? [0x75, 0x6c, 0x6c] _ <;> rfl
  · rw [refined]
    cases scan (Json.skipBlank s) with
    | none => rfl
    | some p => cases hf : f p.1 <;> simp [hf]

/-- A field that parses its version refines the one that leaves it as a text. -/
theorem field_eq_refined (version? : String → Option ν) (name : String) :
    field version? name = refined (Field.parsed? version?) (field some name) := by
  funext s
  rw [refined, field, field]
  by_cases htime : name = "time"
  · simp only [if_pos htime]
    cases meaning? Time.parse? s <;> rfl
  by_cases hversion : name = "version"
  · simp only [if_neg htime, if_pos hversion, meaning?_eq_refined version?, refined]
    cases meaning? some s with
    | none => rfl
    | some p => cases hv : version? p.1 <;> simp [Field.parsed?, hv]
  by_cases hdependency : name = "dependencyversion"
  · simp only [if_neg htime, if_neg hversion, if_pos hdependency, meaning?_eq_refined version?,
      nullable?_refined, refined]
    cases Json.nullable? (meaning? some) s with
    | none => rfl
    | some p => cases hv : p.1.mapM version? <;> simp [Field.parsed?, hv]
  simp only [if_neg htime, if_neg hversion, if_neg hdependency]
  by_cases hdata : name = "data"
  · simp only [if_pos hdata]
    cases Json.values? recordRoom s <;> rfl
  · simp only [if_neg hdata]
    cases Json.string? s <;> rfl

/-- What stands under one name before and after the versions are parsed. -/
inductive Field.Parses (version? : String → Option ν) :
    Option (Field String) → Option (Field ν) → Prop where
  | missing : Parses version? none none
  | text (s : String) : Parses version? (some (.text s)) (some (.text s))
  | time (t : Time) : Parses version? (some (.time t)) (some (.time t))
  | version {s : String} {v : ν} (h : version? s = some v) :
      Parses version? (some (.version s)) (some (.version v))
  | dependency {s : Option String} {v : Option ν} (h : s.mapM version? = some v) :
      Parses version? (some (.dependency s)) (some (.dependency v))
  | data (items : List Json) : Parses version? (some (.data items)) (some (.data items))

theorem Field.parses_of_parsed? {x : Field String} {y : Field ν}
    (h : x.parsed? version? = some y) : Parses version? (some x) (some y) := by
  cases x with
  | text s =>
      obtain rfl := Option.some.inj h
      exact .text s
  | time t =>
      obtain rfl := Option.some.inj h
      exact .time t
  | version s =>
      obtain ⟨v, hv, rfl⟩ := Option.map_eq_some_iff.1 h
      exact .version hv
  | dependency s =>
      obtain ⟨v, hv, rfl⟩ := Option.map_eq_some_iff.1 h
      exact .dependency hv
  | data items =>
      obtain rfl := Option.some.inj h
      exact .data items

def dependencyOf : Option (Field ν) → Option ν
  | some (.dependency v) => v
  | _ => none

def dataOf : Option (Field ν) → List Json
  | some (.data items) => items
  | _ => []

namespace Field.Parses

variable {x : Option (Field String)} {y : Option (Field ν)}

theorem time_iff (h : Parses version? x y) (t : Time) :
    y = some (.time t) ↔ x = some (.time t) := by
  cases h <;> simp

theorem version_iff (h : Parses version? x y) (v : ν) :
    y = some (.version v) ↔ ∃ s, x = some (.version s) ∧ version? s = some v := by
  cases h with
  | version hv => simp [hv]
  | _ => simp

theorem dependencyOf (h : Parses version? x y) :
    (Envelope.dependencyOf x).mapM version? = some (Envelope.dependencyOf y) := by
  cases h with
  | dependency hv => exact hv
  | _ => rfl

theorem dataOf (h : Parses version? x y) : Envelope.dataOf y = Envelope.dataOf x := by
  cases h <;> rfl

end Field.Parses

/-- A version stands nowhere but in a field for one. -/
def Field.Fits (name : String) : Field ν → Prop
  | .version _ => name = "version"
  | .dependency _ => name = "dependencyversion"
  | _ => True

theorem Field.fits_of_field {name : String} {s r : Bytes} {x : Field ν}
    (h : field version? name s = some (x, r)) : x.Fits name := by
  rw [field] at h
  split_ifs at h with htime hversion hdependency hdata <;>
    (obtain ⟨p, _, hp⟩ := Option.map_eq_some_iff.1 h
     obtain rfl := (Prod.mk.inj hp).1)
  · trivial
  · exact hversion
  · exact hdependency
  · trivial
  · trivial

/-! ### All fields of a document -/

def parsedFields? (version? : String → Option ν) (fields : List (String × Field String)) :
    Option (List (String × Field ν)) :=
  fields.mapM (onValue fun _ => Field.parsed? version?)

theorem parsedFields?_cons_eq_some {m : String × Field String} {parsed : List (String × Field ν)}
    (h : parsedFields? version? (m :: fields) = some parsed) :
    ∃ x rest, m.2.parsed? version? = some x ∧ parsedFields? version? fields = some rest ∧
      parsed = (m.1, x) :: rest := by
  rw [parsedFields?, List.mapM_cons] at h
  obtain ⟨n, hn, h⟩ := Option.bind_eq_some_iff.1 h
  obtain ⟨rest, hrest, h⟩ := Option.bind_eq_some_iff.1 h
  obtain ⟨x, hx, rfl⟩ := Option.map_eq_some_iff.1 hn
  exact ⟨x, rest, hx, hrest, (Option.some.inj h).symm⟩

theorem names_parsedFields? {parsed : List (String × Field ν)}
    (h : parsedFields? version? fields = some parsed) :
    parsed.map (·.1) = fields.map (·.1) := by
  refine map_of_mapM h fun m n hn => ?_
  obtain ⟨x, _, rfl⟩ := Option.map_eq_some_iff.1 hn
  rfl

theorem lookup_parsedFields? {parsed : List (String × Field ν)}
    (h : parsedFields? version? fields = some parsed) (name : String) :
    Field.Parses version? (fields.lookup name) (parsed.lookup name) := by
  induction fields generalizing parsed with
  | nil =>
      obtain rfl : [] = parsed := Option.some.inj h
      exact .missing
  | cons m fields ih =>
      obtain ⟨x, rest, hx, hrest, rfl⟩ := parsedFields?_cons_eq_some h
      rw [List.lookup_cons, List.lookup_cons]
      by_cases hname : name = m.1
      · simpa [hname] using Field.parses_of_parsed? hx
      · simpa [beq_eq_false_iff_ne.2 hname] using ih hrest

/-- A name that occurs once stands for one field. -/
theorem lookup_of_mem {α : Type} {members : List (String × α)}
    (hdistinct : Json.distinctNames members = true) {m : String × α} (hm : m ∈ members) :
    members.lookup m.1 = some m.2 := by
  have hnodup : (members.map (·.1)).Nodup := of_decide_eq_true hdistinct
  clear hdistinct
  induction members with
  | nil => cases hm
  | cons n members ih =>
      rw [List.map_cons, List.nodup_cons] at hnodup
      rw [List.lookup_cons]
      rcases List.mem_cons.1 hm with rfl | hm
      · simp
      · have hne : m.1 ≠ n.1 := fun h => hnodup.1 (h ▸ List.mem_map_of_mem hm)
        simp [beq_eq_false_iff_ne.2 hne, ih hm hnodup.2]

/-! ### The envelope -/

/-- What the fields of a document have to say of an envelope. -/
structure Tell (fields : List (String × Field ν)) (x : EnvelopeOf ν) : Prop where
  distinct : Json.distinctNames fields = true
  specVersion : (textField? "specversion" fields).getD defaultSpecVersion = x.specVersion
  bundleType : textField? "type" fields = some x.bundleType
  source : textField? "source" fields = some x.source
  id : textField? "id" fields = some x.id
  time : fields.lookup "time" = some (.time x.time)
  version : fields.lookup "version" = some (.version x.version)
  dependencyVersion : dependencyOf (fields.lookup "dependencyversion") = x.dependencyVersion
  data : dataOf (fields.lookup "data") = x.data

theorem ofFields?_eq_some_iff {fields : List (String × Field ν)} {x : EnvelopeOf ν} :
    ofFields? fields = some x ↔ Tell fields x := by
  constructor
  · intro h
    rw [ofFields?] at h
    obtain ⟨u, hdistinct, h⟩ := Option.bind_eq_some_iff.1 h
    obtain ⟨bundleType, htype, h⟩ := Option.bind_eq_some_iff.1 h
    obtain ⟨source, hsource, h⟩ := Option.bind_eq_some_iff.1 h
    obtain ⟨id, hid, h⟩ := Option.bind_eq_some_iff.1 h
    split at h
    · next time version htime hversion =>
        cases h
        have hnames := (Option.guard_eq_some' u).1 hdistinct
        exact ⟨hnames, rfl, htype, hsource, hid, htime, hversion, rfl, rfl⟩
    · cases h
  · intro h
    obtain ⟨hdistinct, hspec, htype, hsource, hid, htime, hversion, hdependency, hdata⟩ := h
    rw [ofFields?, (Option.guard_eq_some' ()).2 hdistinct, htype, hsource, hid, htime, hversion]
    obtain ⟨specVersion, bundleType, source, id, time, version, dependencyVersion, data⟩ := x
    subst hspec hdependency hdata
    rfl

def withVersions? (version? : String → Option ν) (raw : EnvelopeOf String) :
    Option (EnvelopeOf ν) :=
  (version? raw.version).bind fun version =>
    (raw.dependencyVersion.mapM version?).map fun dependencyVersion =>
      { specVersion := raw.specVersion, bundleType := raw.bundleType, source := raw.source
        id := raw.id, time := raw.time, version, dependencyVersion, data := raw.data }

theorem textField?_parsedFields? {parsed : List (String × Field ν)}
    (h : parsedFields? version? fields = some parsed) (name : String) :
    textField? name parsed = textField? name fields := by
  have hname := lookup_parsedFields? h name
  rw [textField?, textField?]
  generalize fields.lookup name = x at hname ⊢
  generalize parsed.lookup name = y at hname ⊢
  cases hname <;> rfl

theorem withVersions?_eq_some_iff {raw : EnvelopeOf String} {x : EnvelopeOf ν} :
    withVersions? version? raw = some x ↔
      raw.specVersion = x.specVersion ∧ raw.bundleType = x.bundleType ∧ raw.source = x.source ∧
      raw.id = x.id ∧ raw.time = x.time ∧ version? raw.version = some x.version ∧
      raw.dependencyVersion.mapM version? = some x.dependencyVersion ∧ raw.data = x.data := by
  obtain ⟨specVersion, bundleType, source, id, time, version, dependencyVersion, data⟩ := x
  rw [withVersions?]
  cases version? raw.version with
  | none => simp
  | some v =>
      cases raw.dependencyVersion.mapM version? with
      | none => simp
      | some d => simp

/-- If the versions that an envelope is made of can be parsed, so can all versions of the
document: there is none elsewhere. -/
theorem isSome_parsedFields? {raw : EnvelopeOf String} {x : EnvelopeOf ν}
    (hfits : ∀ m ∈ fields, m.2.Fits m.1) (htell : Tell fields raw)
    (hx : withVersions? version? raw = some x) : (parsedFields? version? fields).isSome := by
  obtain ⟨-, -, -, -, -, hversion, hdependency, -⟩ := withVersions?_eq_some_iff.1 hx
  refine isSome_mapM_iff.2 fun m hm => ?_
  have hlookup := lookup_of_mem htell.distinct hm
  have hfit := hfits m hm
  obtain ⟨name, value⟩ := m
  cases value with
  | text s => rfl
  | time t => rfl
  | version v =>
      obtain rfl : name = "version" := hfit
      obtain rfl : raw.version = v := by simpa using htell.version.symm.trans hlookup
      simp [onValue, Field.parsed?, hversion]
  | dependency v =>
      obtain rfl : name = "dependencyversion" := hfit
      obtain rfl : v = raw.dependencyVersion := by
        rw [← htell.dependencyVersion, hlookup]
        rfl
      simp [onValue, Field.parsed?, hdependency]
  | data items => rfl

/-- The fields tell of the same envelope, whether their versions are parsed or those of the
envelope. -/
theorem tell_parsedFields?_iff {parsed : List (String × Field ν)} {x : EnvelopeOf ν}
    (h : parsedFields? version? fields = some parsed) :
    Tell parsed x ↔ ∃ raw, Tell fields raw ∧ withVersions? version? raw = some x := by
  have hnames : Json.distinctNames parsed = Json.distinctNames fields := by
    rw [Json.distinctNames, Json.distinctNames, names_parsedFields? h]
  have htext := textField?_parsedFields? h
  have hlookup := lookup_parsedFields? h
  constructor
  · intro ht
    have htime := ((hlookup _).time_iff _).1 ht.time
    obtain ⟨s, hversion, hparse⟩ := ((hlookup _).version_iff _).1 ht.version
    have hdependency := (hlookup "dependencyversion").dependencyOf
    rw [ht.dependencyVersion] at hdependency
    have hdata := (hlookup "data").dataOf.symm.trans ht.data
    let raw : EnvelopeOf String :=
      { specVersion := x.specVersion, bundleType := x.bundleType, source := x.source, id := x.id
        time := x.time, version := s
        dependencyVersion := dependencyOf (fields.lookup "dependencyversion"), data := x.data }
    exact ⟨raw,
      ⟨hnames ▸ ht.distinct, htext _ ▸ ht.specVersion, htext _ ▸ ht.bundleType,
        htext _ ▸ ht.source, htext _ ▸ ht.id, htime, hversion, rfl, hdata⟩,
      withVersions?_eq_some_iff.2 ⟨rfl, rfl, rfl, rfl, rfl, hparse, hdependency, rfl⟩⟩
  · rintro ⟨raw, ht, hx⟩
    obtain ⟨hspec, htype, hsource, hid, htime, hversion, hdependency, hdata⟩ :=
      withVersions?_eq_some_iff.1 hx
    have hparsed := (hlookup "dependencyversion").dependencyOf
    rw [ht.dependencyVersion, hdependency] at hparsed
    exact
      { distinct := hnames.trans ht.distinct
        specVersion := by rw [htext, ht.specVersion, hspec]
        bundleType := by rw [htext, ht.bundleType, htype]
        source := by rw [htext, ht.source, hsource]
        id := by rw [htext, ht.id, hid]
        time := ((hlookup _).time_iff _).2 (htime ▸ ht.time)
        version := ((hlookup _).version_iff _).2 ⟨_, ht.version, hversion⟩
        dependencyVersion := (Option.some.inj hparsed).symm
        data := by rw [(hlookup _).dataOf, ht.data, hdata] }

/-- What is refined in the fields can be refined in the envelope. -/
theorem ofFields?_parsedFields? (hfits : ∀ m ∈ fields, m.2.Fits m.1) :
    (parsedFields? version? fields).bind ofFields? =
      (ofFields? fields).bind (withVersions? version?) := by
  ext x
  simp only [Option.bind_eq_some_iff, ofFields?_eq_some_iff]
  constructor
  · rintro ⟨parsed, hparsed, ht⟩
    exact (tell_parsedFields?_iff hparsed).1 ht
  · rintro ⟨raw, ht, hx⟩
    obtain ⟨parsed, hparsed⟩ := Option.isSome_iff_exists.1 (isSome_parsedFields? hfits ht hx)
    exact ⟨parsed, hparsed, (tell_parsedFields?_iff hparsed).2 ⟨raw, ht, hx⟩⟩

/-! ### The document -/

/-- To parse the versions on the way is to parse them in the envelope. -/
theorem scan?_eq_refined (version? : String → Option ν) :
    scan? version? = refined (withVersions? version?) (scan? some) := by
  have hscan {μ : Type} (read? : String → Option μ) :
      scan? read? = refined ofFields? (Json.record? fieldNames (field read?)) := by
    funext s
    rw [scan?, refined]
    cases Json.record? fieldNames (field read?) s with
    | none => rfl
    | some p => cases he : ofFields? p.1 <;> simp [he]
  have hfields : field version? =
      fun name => refined (Field.parsed? version?) (field some name) :=
    funext fun name => field_eq_refined version? name
  rw [hscan, hscan, hfields, Json.record?_refined, Json.refined_refined, Json.refined_refined]
  exact Json.refined_congr fun s fields r h =>
    ofFields?_parsedFields?
      (Json.of_mem_record? (fun k x => x.Fits k) (fun _ _ _ _ => Field.fits_of_field) h)

theorem readWith?_eq (version? : String → Option ν) (b : Bytes) :
    readWith? version? b = (readWith? some b).bind (withVersions? version?) := by
  rw [readWith?, scan?_eq_refined, Json.whole?_refined, readWith?]

theorem toOption_parseVersions (raw : EnvelopeOf String) :
    (parseVersions raw).toOption =
      withVersions? (fun s => (Version.parse s).toOption) raw := by
  rw [parseVersions, withVersions?]
  cases Version.parse raw.version with
  | error err => rfl
  | ok v =>
      cases raw.dependencyVersion with
      | none => rfl
      | some t => cases ht : Version.parse t <;> simp [ht, Except.toOption] <;> rfl

/-- The version of the bundle is looked at first, so its error is the one that is told. -/
theorem parseVersions_eq_error_iff {raw : EnvelopeOf String} {err : Version.ParseError} :
    parseVersions raw = .error err ↔
      Version.parse raw.version = .error err ∨
        (∃ v, Version.parse raw.version = .ok v) ∧
          ∃ t, raw.dependencyVersion = some t ∧ Version.parse t = .error err := by
  rw [parseVersions]
  cases Version.parse raw.version with
  | error other => simp [bind, Except.bind]
  | ok v =>
      cases raw.dependencyVersion with
      | none => simp [bind, Except.bind]
      | some t => cases ht : Version.parse t <;> simp [ht, bind, Except.bind, Except.map]

theorem exists_parseVersions_eq_error_iff {raw : EnvelopeOf String} :
    (∃ err, parseVersions raw = .error err) ↔
      ∃ text, (raw.version = text ∨ raw.dependencyVersion = some text) ∧
        ∀ v, Version.parse text ≠ .ok v := by
  simp only [parseVersions_eq_error_iff]
  constructor
  · rintro ⟨err, herr | ⟨-, text, htext, herr⟩⟩
    · exact ⟨raw.version, .inl rfl, fun v => by simp [herr]⟩
    · exact ⟨text, .inr htext, fun v => by simp [herr]⟩
  · rintro ⟨text, htext, hnot⟩
    cases hversion : Version.parse raw.version with
    | error err => exact ⟨err, .inl rfl⟩
    | ok v =>
        rcases htext with rfl | htext
        · exact absurd hversion (hnot v)
        · cases ht : Version.parse text with
          | error err => exact ⟨err, .inr ⟨⟨v, rfl⟩, text, htext, ht⟩⟩
          | ok w => exact absurd ht (hnot w)

theorem decode_eq_ok_iff {b : Bytes} {e : Envelope} :
    decode b = .ok e ↔ read? b = some e := by
  rw [decode, read?, readWith?_eq fun s => (Version.parse s).toOption]
  cases readWith? some b with
  | none => simp
  | some raw =>
      rw [Option.bind_some, ← toOption_parseVersions]
      cases hraw : parseVersions raw <;> simp [Except.mapError, Except.toOption, hraw]

theorem decode_eq_version_iff {b : Bytes} {err : Version.ParseError} :
    decode b = .error (.version err) ↔
      ∃ raw, readWith? some b = some raw ∧ parseVersions raw = .error err := by
  rw [decode]
  cases readWith? some b with
  | none => simp
  | some raw => cases hraw : parseVersions raw <;> simp [Except.mapError, hraw]

theorem decode_eq_document_iff {b : Bytes} :
    decode b = .error .document ↔ readWith? some b = none := by
  rw [decode]
  cases readWith? some b with
  | none => simp
  | some raw => cases hraw : parseVersions raw <;> simp [Except.mapError, hraw]

/-- The two readers of envelopes agree on every sequence of bytes. The one that parses the
versions afterwards gives an envelope if and only if the one that parses them on the way gives
that envelope. It complains about a version if and only if the document can be read with its
versions left as texts and one of them is no version; the error is then that of the version of the
bundle, or, if there is nothing wrong with this one, that of the dependency version. Whatever else
is wrong, it complains about the document. -/
theorem decode_agrees (b : Bytes) :
    (∀ e, decode b = .ok e ↔ read? b = some e) ∧
    ((∃ err, decode b = .error (.version err)) ↔
      ∃ raw, readWith? some b = some raw ∧
        ∃ text, (raw.version = text ∨ raw.dependencyVersion = some text) ∧
          ∀ v, Version.parse text ≠ .ok v) ∧
    (∀ err, decode b = .error (.version err) ↔
      ∃ raw, readWith? some b = some raw ∧
        (Version.parse raw.version = .error err ∨
          (∃ v, Version.parse raw.version = .ok v) ∧
            ∃ text, raw.dependencyVersion = some text ∧ Version.parse text = .error err)) ∧
    (decode b = .error .document ↔ readWith? some b = none) := by
  refine ⟨fun e => decode_eq_ok_iff, ?_, fun err => ?_, decode_eq_document_iff⟩
  · simp only [decode_eq_version_iff, ← exists_parseVersions_eq_error_iff]
    constructor
    · rintro ⟨err, raw, hraw, herr⟩
      exact ⟨raw, hraw, err, herr⟩
    · rintro ⟨raw, hraw, err, herr⟩
      exact ⟨err, raw, hraw, herr⟩
  · simp only [decode_eq_version_iff, parseVersions_eq_error_iff]

/-- An array of the fields, of which the last two are left out. -/
example :
    let text := "[\"1.0\", \"T\", \"hub1\", \"id\", \"2024-01-01T00:00:00Z\", \"0.1\"]"
    (decode (Bytes.ofText text)).toOption.map (fun e => (e.source, e.version, e.dependencyVersion))
      = some ("hub1", ⟨0, 1⟩, none) := by
  decide +kernel

/-- Of two texts that are no versions, that of the bundle is told. -/
example :
    let text := "[\"1.0\", \"T\", \"hub1\", \"id\", \"2024-01-01T00:00:00Z\", \"x\", \"0.y\"]"
    (match decode (Bytes.ofText text) with | .ok _ => none | .error err => some err) =
      some (.version (.malformed "x")) := by
  decide +kernel

end Envelope

end Conflux

import Conflux.Proofs.Config.Overrides
import Conflux.Zstd.Plain
import Mathlib.Data.List.Basic

/-!
How the layers of the settings come together: the defaults, a file over them, the environment over
both. Two files that differ only in what the environment overrides come to the same settings.

The settings have to be valid twice, though, and the first time before the environment is asked. A
file whose own ceiling the wire cannot carry is refused, even where the environment names another
ceiling. So the two files come to the same result if each of them is valid, or if they agree on the
ceiling; and a hub has settings just when both those of the file and those in effect are valid.
-/

namespace Conflux.Config

/-- The settings of the defaults and the file, before anything is checked. Where there is no file
the defaults stand alone. -/
def layered? (env : Environment) : Except Files.ReadError Bytes → Option Config
  | .ok b => (Bytes.toText? b).bind (ofText? (standard env))
  | .error .isDirectory => none
  | .error _ => some (standard env)

variable {env : Environment} {file file' : Except Files.ReadError Bytes} {c c' d : Config}

theorem valid_standard (env : Environment) : (standard env).Valid := by
  refine ⟨?_, ?_⟩
  · change 1 ≤ 60000
    omega
  · change 60000 ≤ 65000
    omega

theorem validate_of_valid (h : c.Valid) : c.validate = .ok c := if_pos h

theorem validate_of_not_valid (h : ¬ c.Valid) :
    c.validate = .error (.invalidSize c.transport.maxFragmentBytes) := if_neg h

theorem validate_eq_ok_iff : c.validate = .ok d ↔ c = d ∧ d.Valid := by
  by_cases h : c.Valid
  · rw [validate_of_valid h]
    constructor
    · intro heq
      obtain rfl := Except.ok.inj heq
      exact ⟨rfl, h⟩
    · rintro ⟨rfl, -⟩
      rfl
  · rw [validate_of_not_valid h]
    refine iff_of_false nofun ?_
    rintro ⟨rfl, hd⟩
    exact h hd

/-- What the file leaves is checked first, and then what the environment makes of it. -/
theorem load_of_layered (h : layered? env file = some c) :
    load env file = c.validate.bind fun c => (c.withOverrides env).validate := by
  rw [load]
  congr 1
  cases file with
  | ok b =>
      rw [layered?] at h
      obtain ⟨text, htext, hc⟩ := Option.bind_eq_some_iff.1 h
      rw [ofFileOrStandard, ofFile, ofBytes, htext]
      · dsimp only
        rw [hc]
      · nofun
      · nofun
  | error e =>
      cases e with
      | isDirectory => cases h
      | notFound | noWay =>
          obtain rfl := Option.some.inj h
          exact (validate_of_valid (valid_standard env)).symm

/-- Of a file that cannot be read, or does not say what it says in the right form, nothing
comes. -/
theorem load_of_not_layered (h : layered? env file = none) (d : Config) :
    load env file ≠ .ok d := by
  cases file with
  | ok b =>
      rw [layered?] at h
      rw [load, ofFileOrStandard, ofFile, ofBytes]
      · cases htext : Bytes.toText? b with
        | none => nofun
        | some text =>
            rw [htext, Option.bind_some] at h
            dsimp only
            rw [h]
            nofun
      · nofun
      · nofun
  | error e =>
      cases e with
      | isDirectory => nofun
      | notFound | noWay => cases h

theorem load_eq_ok_iff :
    load env file = .ok d ↔
      ∃ c, layered? env file = some c ∧ c.Valid ∧ d = c.withOverrides env ∧ d.Valid := by
  cases hlayered : layered? env file with
  | none => exact iff_of_false (load_of_not_layered hlayered d) nofun
  | some c =>
      rw [load_of_layered hlayered]
      by_cases hc : c.Valid
      · rw [validate_of_valid hc, Except.bind, validate_eq_ok_iff]
        constructor
        · rintro ⟨rfl, hd⟩
          exact ⟨c, rfl, hc, rfl, hd⟩
        · rintro ⟨_, ⟨⟩, -, rfl, hd⟩
          exact ⟨rfl, hd⟩
      · rw [validate_of_not_valid hc, Except.bind]
        refine iff_of_false nofun ?_
        rintro ⟨_, ⟨⟩, hvalid, -⟩
        exact hc hvalid

theorem AgreeBeside.load_eq (h : AgreeBeside env c c') (hfile : layered? env file = some c)
    (hfile' : layered? env file' = some c')
    (hceiling : c.transport.maxFragmentBytes = c'.transport.maxFragmentBytes ∨
      c.Valid ∧ c'.Valid) :
    load env file = load env file' := by
  have hvalid (hc : c.Valid) (hc' : c'.Valid) : load env file = load env file' := by
    rw [load_of_layered hfile, load_of_layered hfile', validate_of_valid hc,
      validate_of_valid hc', Except.bind, Except.bind, h.withOverrides_eq]
  rcases hceiling with hsame | ⟨hc, hc'⟩
  · by_cases hc : c.Valid
    · exact hvalid hc (by rwa [Valid, ← hsame])
    · have hc' : ¬ c'.Valid := by rwa [Valid, ← hsame]
      rw [load_of_layered hfile, load_of_layered hfile', validate_of_not_valid hc,
        validate_of_not_valid hc', hsame]
  · exact hvalid hc hc'

/-- With valid settings a message is cut, unless the compressor gives up or there is too much of
it for the wire. -/
theorem Valid.fragment_eq_error_iff [Compression] (h : c.Valid) (m : Message)
    (timestamp : UInt64) (e : CuttingError) :
    c.fragmenter.fragment m timestamp = .error e ↔
      (c.transport.encoding.encode? m.encode = none ∧ e = .compression) ∨
        ∃ encoded, c.transport.encoding.encode? m.encode = some encoded ∧
          UInt32.size ≤ encoded.length ∧ e = .tooLarge encoded.length := by
  have hceiling : ¬ (c.transport.maxFragmentBytes = 0 ∨
      Fragment.maxPayload < c.transport.maxFragmentBytes) := by
    have hfits := h.2
    have hsome := h.1
    omega
  rw [fragmenter, Fragmenter.fragment, Fragment.ofMessage, if_neg hceiling]
  dsimp only
  cases c.transport.encoding.encode? m.encode with
  | none => simp [eq_comm]
  | some encoded =>
      by_cases hlong : UInt32.size ≤ encoded.length
      · simp [hlong, eq_comm]
      · simp [hlong]

/-- A setting is what the environment says in the right form, and else what the file leaves. A hub
has the settings that come of it just when they are valid and those of the file are; then its
messages are cut whenever the compressor makes something of them that the wire can carry. What a
file says about settings that are overridden does not matter, as long as the two files have one
ceiling, or each of them one that the wire can carry. -/
theorem overrides_decide [Compression] (env : Environment) :
    (∀ c s, (withOverrides env c).get s = (override? env s).getD (c.get s)) ∧
      (∀ file d, load env file = .ok d ↔
        ∃ c, layered? env file = some c ∧ c.Valid ∧ d = c.withOverrides env ∧ d.Valid) ∧
      (∀ file d, load env file = .ok d → ∀ m timestamp e,
        d.fragmenter.fragment m timestamp = .error e ↔
          (d.transport.encoding.encode? m.encode = none ∧ e = .compression) ∨
            ∃ encoded, d.transport.encoding.encode? m.encode = some encoded ∧
              UInt32.size ≤ encoded.length ∧ e = .tooLarge encoded.length) ∧
      ∀ file file' c c', layered? env file = some c → layered? env file' = some c' →
        (∀ s, override? env s = none → c.get s = c'.get s) →
          (c.transport.maxFragmentBytes = c'.transport.maxFragmentBytes ∨ c.Valid ∧ c'.Valid) →
            load env file = load env file' := by
  refine ⟨get_withOverrides env, fun file d => load_eq_ok_iff, fun file d hload => ?_, ?_⟩
  · obtain ⟨_, _, _, _, hvalid⟩ := load_eq_ok_iff.1 hload
    exact hvalid.fragment_eq_error_iff
  · intro file file' c c' hfile hfile' hagree
    exact AgreeBeside.load_eq hagree hfile hfile'

open scoped Zstd

/-- A ceiling, a name and a number that is none. -/
def overriding : Environment where
  entries := [("HUBSTAT_TRANSPORT__MAX_FRAGMENT_BYTES", "1200"),
    ("HUBSTAT_TRANSPORT__HUB_NAME", "central"),
    ("HUBSTAT_CONFLATION__RETRY_MAX_ATTEMPTS", "not-a-number")]

/-- A file that sets the ceiling and nothing else. -/
def ceilingFile (digits : String) : Except Files.ReadError Bytes :=
  .ok (Bytes.ofText ("[transport]\nmax_fragment_bytes = " ++ digits ++ "\n"))

def withCeiling (n : Nat) : Config :=
  let c := standard overriding
  { c with transport := { c.transport with maxFragmentBytes := n } }

theorem agreeBeside_withCeiling (n n' : Nat) :
    AgreeBeside overriding (withCeiling n) (withCeiling n') := by
  intro s hs
  cases s with
  | maxFragmentBytes =>
      have hsays : override? overriding .maxFragmentBytes = some (.natural 1200) := by
        decide +kernel
      cases hs.symm.trans hsays
  | _ => rfl

/-- Two valid ceilings in two files. -/
theorem overrides_decide_two_ceilings :
    let d := (withCeiling 100).withOverrides overriding
    layered? overriding (ceilingFile "65000") = some (withCeiling 65000) ∧
      layered? overriding (ceilingFile "100") = some (withCeiling 100) ∧
        load overriding (ceilingFile "65000") = load overriding (ceilingFile "100") ∧
          load overriding (ceilingFile "100") = .ok d ∧
            d.get .maxFragmentBytes = .natural 1200 ∧ d.get .hubName = .text "central" ∧
              d.get .retryMaxAttempts = .natural 5 := by
  intro d
  have hfile : layered? overriding (ceilingFile "65000") = some (withCeiling 65000) := by
    decide +kernel
  have hfile' : layered? overriding (ceilingFile "100") = some (withCeiling 100) := by
    decide +kernel
  obtain ⟨hget, hload, -, hsame⟩ := overrides_decide overriding
  have hvalid : (withCeiling 65000).Valid ∧ (withCeiling 100).Valid := by decide +kernel
  refine ⟨hfile, hfile', ?_, ?_, ?_⟩
  · exact hsame _ _ _ _ hfile hfile' (agreeBeside_withCeiling _ _) (.inr hvalid)
  · exact (hload _ _).2 ⟨_, hfile', hvalid.2, rfl, by decide +kernel⟩
  · decide +kernel

/-- The file names a ceiling that the wire cannot carry, and the environment one that it can. What
comes of both would be valid, but the file is refused for its own. -/
theorem refuses_overridden_ceiling :
    layered? overriding (ceilingFile "0") = some (withCeiling 0) ∧
      layered? overriding (ceilingFile "1200") = some (withCeiling 1200) ∧
        AgreeBeside overriding (withCeiling 0) (withCeiling 1200) ∧
          ((withCeiling 0).withOverrides overriding).Valid ∧
            load overriding (ceilingFile "0") = .error (.invalidSize 0) ∧
              load overriding (ceilingFile "1200") =
                .ok ((withCeiling 1200).withOverrides overriding) := by
  refine ⟨?_, ?_, agreeBeside_withCeiling 0 1200, ?_, ?_, ?_⟩
  all_goals decide +kernel

end Conflux.Config

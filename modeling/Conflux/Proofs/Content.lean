import Conflux.Message
import Conflux.Proofs.Json.Compact
import Mathlib.Data.Option.Basic
import Mathlib.Tactic.SplitIfs

/-!
A message is read back as it was written, whatever is in it. Its payload is written in base 64:
the letters are told apart, four at a time, and they are all below 128, so that they are a text.
-/

namespace Conflux

/-! ### Base 64 -/

namespace Bytes.Base64

theorem sextet?_letter : ∀ n, n < 64 → sextet? (letter n) = some n ∧ letter n ≠ pad := by
  decide +kernel

/-- Three bytes as four numbers of six bits, and back. -/
theorem regroup (a b c : UInt8) :
    UInt8.ofNat (a.toNat / 4 * 4 + (a.toNat % 4 * 16 + b.toNat / 16) / 16) = a ∧
      UInt8.ofNat ((a.toNat % 4 * 16 + b.toNat / 16) % 16 * 16 +
        (b.toNat % 16 * 4 + c.toNat / 64) / 4) = b ∧
      UInt8.ofNat ((b.toNat % 16 * 4 + c.toNat / 64) % 4 * 64 + c.toNat % 64) = c := by
  have hb := b.toNat_lt
  have hc := c.toNat_lt
  have ha' : a.toNat / 4 * 4 + (a.toNat % 4 * 16 + b.toNat / 16) / 16 = a.toNat := by omega
  have hb' : (a.toNat % 4 * 16 + b.toNat / 16) % 16 * 16 +
      (b.toNat % 16 * 4 + c.toNat / 64) / 4 = b.toNat := by omega
  have hc' : (b.toNat % 16 * 4 + c.toNat / 64) % 4 * 64 + c.toNat % 64 = c.toNat := by omega
  rw [ha', hb', hc', UInt8.ofNat_toNat, UInt8.ofNat_toNat, UInt8.ofNat_toNat]
  exact ⟨rfl, rfl, rfl⟩

/-- The letters for three bytes, or for fewer and a padding. -/
theorem sextet?_group (a b c : UInt8) :
    sextet? (letter (a.toNat / 4)) = some (a.toNat / 4) ∧
      sextet? (letter (a.toNat % 4 * 16 + b.toNat / 16)) = some (a.toNat % 4 * 16 + b.toNat / 16) ∧
      (sextet? (letter (b.toNat % 16 * 4 + c.toNat / 64)) =
        some (b.toNat % 16 * 4 + c.toNat / 64) ∧
          letter (b.toNat % 16 * 4 + c.toNat / 64) ≠ pad) ∧
      sextet? (letter (c.toNat % 64)) = some (c.toNat % 64) ∧ letter (c.toNat % 64) ≠ pad := by
  have ha := a.toNat_lt
  have hb := b.toNat_lt
  have hc := c.toNat_lt
  exact ⟨(sextet?_letter _ (by omega)).1, (sextet?_letter _ (by omega)).1,
    sextet?_letter _ (by omega), sextet?_letter _ (by omega)⟩

theorem decode?_encode (b : Bytes) : decode? (encode b) = some b := by
  induction b using encode.induct with
  | case1 => rfl
  | case2 a =>
      obtain ⟨ha, _⟩ := regroup a 0 0
      obtain ⟨hx, hy, _⟩ := sextet?_group a 0 0
      simp only [UInt8.toNat_zero, Nat.zero_div, Nat.add_zero] at ha hy
      have hpadded : a.toNat % 4 * 16 % 16 = 0 := Nat.mul_mod_left _ _
      simp only [encode, decode?, lastGroup?, hx, hy, Option.bind_eq_bind, Option.bind_some,
        if_true, true_and, hpadded, ha]
  | case3 a b =>
      obtain ⟨ha, hb, _⟩ := regroup a b 0
      obtain ⟨hx, hy, ⟨hz, hpad⟩, _⟩ := sextet?_group a b 0
      simp only [UInt8.toNat_zero, Nat.zero_div, Nat.add_zero] at hb hz hpad
      have hpadded : b.toNat % 16 * 4 % 4 = 0 := Nat.mul_mod_left _ _
      simp only [encode, decode?, lastGroup?, hx, hy, hz, Option.bind_eq_bind, Option.bind_some,
        if_neg hpad, if_true, hpadded, ha, hb]
  | case4 a b c rest ih =>
      obtain ⟨ha, hb, hc⟩ := regroup a b c
      obtain ⟨hx, hy, ⟨hz, hpad⟩, hw, hpad'⟩ := sextet?_group a b c
      rw [encode]
      cases hrest : encode rest with
      | nil =>
          rw [hrest] at ih
          obtain rfl := Option.some.inj ih
          simp only [decode?, lastGroup?, hx, hy, hz, hw, Option.bind_eq_bind, Option.bind_some,
            if_neg hpad, if_neg hpad', ha, hb, hc]
      | cons x xs =>
          rw [hrest] at ih
          rw [decode?]
          · simp only [fullGroup?, hx, hy, hz, hw, Option.bind_eq_bind, Option.bind_some, ih, ha,
              hb, hc, List.cons_append, List.nil_append]
          · nofun

theorem ascii_letter (n : Nat) : letter n < 0x80 := by
  rw [letter, UInt8.lt_iff_toNat_lt]
  split_ifs <;> simp <;> omega

theorem ascii_encode (b : Bytes) : ∀ x ∈ encode b, x < 0x80 := by
  have hpad : pad < 0x80 := by decide
  induction b using encode.induct with
  | case1 => nofun
  | case2 a => simp [encode, ascii_letter, hpad]
  | case3 a b => simp [encode, ascii_letter, hpad]
  | case4 a b c rest ih => simpa [encode, ascii_letter] using ih

end Bytes.Base64

/-- Bytes below 128 are a text. -/
theorem Bytes.exists_ofText {b : Bytes} (h : ∀ x ∈ b, x < 0x80) : ∃ t, ofText t = b := by
  have hone : ∀ n, n < 128 → ofText (String.singleton (Char.ofNat n)) = [UInt8.ofNat n] := by
    decide +kernel
  induction b with
  | nil => exact ⟨"", rfl⟩
  | cons x b ih =>
      obtain ⟨t, ht⟩ := ih fun y hy => h y (List.mem_cons_of_mem x hy)
      have hx : x.toNat < 128 := UInt8.lt_iff_toNat_lt.1 (h x List.mem_cons_self)
      refine ⟨String.singleton (Char.ofNat x.toNat) ++ t, ?_⟩
      rw [ofText_append, hone _ hx, ht, UInt8.ofNat_toNat]
      rfl

/-! ### Messages -/

namespace Message

theorem ofText_base64Text (b : Bytes) :
    Bytes.ofText (base64Text b) = Bytes.Base64.encode b := by
  obtain ⟨t, ht⟩ := Bytes.exists_ofText (Bytes.Base64.ascii_encode b)
  rw [base64Text, ← ht, Bytes.toText?_ofText, Option.getD_some]

variable {m : Message}

theorem field_text {name : String} (hname : name ≠ "payload") (t : String) (rest : Bytes) :
    field name (Json.quote t ++ rest) = some (.text t, rest) := by
  rw [field, if_neg hname, Json.string?_of_quote (Json.skipBlank_quote t rest)]
  rfl

theorem field_payload (b rest : Bytes) :
    field "payload" (Json.quote (base64Text b) ++ rest) = some (.payload b, rest) := by
  rw [field, if_pos rfl]
  simp [Envelope.meaning?, Json.string?_of_quote (Json.skipBlank_quote (base64Text b) rest),
    ofText_base64Text, Bytes.Base64.decode?_encode]

/-- What is written of a message, field by field. -/
def texts (m : Message) : List (Json.TextField Field) :=
  [⟨"key", m.key, .text m.key⟩, ⟨"id", m.id, .text m.id⟩, ⟨"msgType", m.kind, .text m.kind⟩,
    ⟨"version", m.version, .text m.version⟩, ⟨"destination", m.destination, .text m.destination⟩,
    ⟨"payload", base64Text m.payload, .payload m.payload⟩]

theorem ofFields?_texts (m : Message) :
    ofFields? (m.texts.map fun f => (f.name, f.meaning)) = some m := by
  have hdistinct : Json.distinctNames (m.texts.map fun f => (f.name, f.meaning)) = true := by
    simp [texts, Json.distinctNames]
  rw [ofFields?, (Option.guard_eq_some' ()).2 hdistinct]
  rfl

/-- A message is read back as it was written. -/
theorem decode?_encode (m : Message) : decode? m.encode = some m := by
  have hne : m.texts ≠ [] := List.cons_ne_nil _ _
  have hnames : ∀ f ∈ m.texts, f.name ∈ fieldNames := by simp [texts, fieldNames]
  have hfield : ∀ f ∈ m.texts, ∀ rest, field f.name (Json.quote f.text ++ rest) =
      some (f.meaning, rest) := by
    simp [texts, field_text, field_payload]
  have hrecord := Json.record?_texts hne hnames hfield []
  rw [List.append_nil] at hrecord
  have hscan : scan? m.encode = some (m, []) := by
    rw [scan?, show m.encode = (Json.object (m.texts.map (·.member))).compact from rfl, hrecord]
    simp only [Option.bind_eq_bind, Option.bind_some, ofFields?_texts]
  rw [decode?, Json.whole?, hscan]
  rfl

end Message

end Conflux

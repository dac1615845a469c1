import Conflux.Envelope
import Conflux.Proofs.Json.ReadBack
import Conflux.Proofs.Version
import Mathlib.Data.List.Induction
import Mathlib.Data.Nat.Digits.Defs

/-!
The texts that stand for versions. A numeral is an optional plus sign and a row of digits, and its
value is that of the row in base ten; a text stands for a version if two numerals of 64 bits are
parted by its first point. The reader takes these texts and no others, and what is written for the
version that it finds is the text without the plus signs and without the zeros in front.
-/

namespace Conflux

namespace Decimal

/-! ### Numerals -/

def digitValue (c : Char) : Nat := c.toNat - '0'.toNat

def valueOf (digits : List Char) : Nat := Nat.ofDigits 10 (digits.reverse.map digitValue)

/-- An optional plus sign, and one digit or more with the value `n`. -/
def IsNumeral (cs : List Char) (n : Nat) : Prop :=
  ∃ sign digits, cs = sign ++ digits ∧ (sign = [] ∨ sign = ['+']) ∧ digits ≠ [] ∧
    (∀ c ∈ digits, c.isDigit = true) ∧ valueOf digits = n

def bare (cs : List Char) : List Char :=
  match (if cs.head? = some '+' then cs.tail else cs).dropWhile (· = '0') with
  | [] => ['0']
  | c :: cs => c :: cs

@[simp] theorem valueOf_concat (digits : List Char) (c : Char) :
    valueOf (digits ++ [c]) = valueOf digits * 10 + digitValue c := by
  simp only [valueOf, List.reverse_append, List.reverse_singleton, List.singleton_append,
    List.map_cons, Nat.ofDigits_cons]
  omega

@[simp] theorem valueOf_zero_cons (digits : List Char) :
    valueOf ('0' :: digits) = valueOf digits := by
  simp [valueOf, Nat.ofDigits_append, digitValue]

theorem valueOf_dropWhile_zero (digits : List Char) :
    valueOf (digits.dropWhile (· = '0')) = valueOf digits := by
  induction digits with
  | nil => rfl
  | cons c digits ih =>
      by_cases hc : c = '0'
      · subst hc
        simpa using ih
      · simp [hc]

theorem digit?_eq_some_iff {c : Char} {d : Nat} :
    digit? c = some d ↔ c.isDigit = true ∧ digitValue c = d := by
  have hdigit : c.isDigit = true ↔ '0' ≤ c ∧ c ≤ '9' := by
    rw [Char.isDigit, Bool.and_eq_true, decide_eq_true_eq, decide_eq_true_eq]
    rfl
  rw [digit?, hdigit]
  by_cases h : '0' ≤ c ∧ c ≤ '9'
  · rw [if_pos h, Option.some_inj]
    exact ⟨fun hd => ⟨h, hd⟩, fun hd => hd.2⟩
  · rw [if_neg h]
    exact ⟨nofun, fun hd => absurd hd.1 h⟩

theorem digits?_eq_some_iff {cs : List Char} {n : Nat} :
    digits? 0 cs = some n ↔ (∀ c ∈ cs, c.isDigit = true) ∧ valueOf cs = n := by
  induction cs using List.reverseRecOn generalizing n with
  | nil => simp [digits?, valueOf]
  | append_singleton cs c ih =>
      have hlast (m : Nat) : digits? m [c] = (digit? c).map fun d => m * 10 + d := by
        rw [digits?]
        cases digit? c <;> rfl
      rw [digits?_append, Option.bind_eq_some_iff]
      simp only [hlast, Option.map_eq_some_iff, digit?_eq_some_iff, ih, valueOf_concat]
      constructor
      · rintro ⟨m, ⟨hcs, rfl⟩, d, ⟨hc, rfl⟩, rfl⟩
        refine ⟨fun e he => ?_, rfl⟩
        rcases List.mem_append.1 he with he | he
        · exact hcs e he
        · rw [List.mem_singleton.1 he]
          exact hc
      · rintro ⟨hall, rfl⟩
        exact ⟨_, ⟨fun e he => hall e (List.mem_append_left _ he), rfl⟩, _,
          ⟨hall c List.mem_concat_self, rfl⟩, rfl⟩

theorem numeral?_eq_some_iff {cs : List Char} {n : Nat} :
    numeral? cs = some n ↔ cs ≠ [] ∧ (∀ c ∈ cs, c.isDigit = true) ∧ valueOf cs = n := by
  cases cs with
  | nil => simp [numeral?]
  | cons c cs =>
      rw [numeral?, digits?_eq_some_iff]
      simp

theorem unsigned?_eq_some_iff {cs : List Char} {n : Nat} :
    unsigned? cs = some n ↔ IsNumeral cs n := by
  constructor
  · intro h
    unfold unsigned? at h
    split at h
    · next digits => exact ⟨['+'], digits, rfl, .inr rfl, numeral?_eq_some_iff.1 h⟩
    · exact ⟨[], cs, rfl, .inl rfl, numeral?_eq_some_iff.1 h⟩
  · rintro ⟨sign, digits, rfl, rfl | rfl, hdigits⟩
    · rw [List.nil_append, unsigned?, numeral?_eq_some_iff.2 hdigits]
      -- A plus sign is no digit.
      rintro cs rfl
      exact absurd (hdigits.2.1 '+' List.mem_cons_self) (by decide)
    · exact numeral?_eq_some_iff.2 hdigits

theorem toNat_le_maxUInt64 (n : UInt64) : n.toNat ≤ maxUInt64 := Nat.le_of_lt_succ n.toNat_lt

/-- A word is read from the numerals of its value, so from no numeral above the bound. -/
theorem readUInt64?_eq_some_iff {cs : List Char} {n : UInt64} :
    readUInt64? cs = some n ↔ IsNumeral cs n.toNat := by
  rw [readUInt64?, read?, Option.map_eq_some_iff]
  simp only [Option.filter_eq_some_iff, unsigned?_eq_some_iff]
  constructor
  · rintro ⟨m, ⟨hm, hbound⟩, rfl⟩
    rw [decide_eq_true_eq, maxUInt64] at hbound
    rwa [UInt64.toNat_ofNat_of_lt' (Nat.lt_succ_of_le hbound)]
  · intro h
    exact ⟨n.toNat, ⟨h, decide_eq_true (toNat_le_maxUInt64 n)⟩, UInt64.ofNat_toNat⟩

/-! ### Reading in words -/

def appendDigit? (left : UInt64) (c : Char) : Option UInt64 :=
  (digit? c).bind fun d =>
    if left.toNat * 10 + d ≤ maxUInt64 then some (left * 10 + .ofNat d) else none

def wordFrom? : (left : UInt64) → List Char → Option UInt64
  | left, [] => some left
  | left, c :: cs => (appendDigit? left c).bind fun next => wordFrom? next cs

def wordRow? : List Char → Option UInt64
  | [] => none
  | c :: cs => wordFrom? 0 (c :: cs)

/-- Reads a numeral digit by digit, and gives up where a word is no longer enough. -/
def readWord? : List Char → Option UInt64
  | '+' :: cs => wordRow? cs
  | cs => wordRow? cs

theorem le_of_digits? {left n : Nat} {cs : List Char} (h : digits? left cs = some n) :
    left ≤ n := by
  induction cs generalizing left with
  | nil => exact Nat.le_of_eq (Option.some.inj h)
  | cons c cs ih =>
      obtain ⟨d, -, hrest⟩ := Option.bind_eq_some_iff.1 h
      have hle := ih hrest
      omega

/-- The value only grows, so the first overflow decides. -/
theorem wordFrom?_eq (left : UInt64) (cs : List Char) :
    wordFrom? left cs =
      ((digits? left.toNat cs).filter (· ≤ maxUInt64)).map UInt64.ofNat := by
  induction cs generalizing left with
  | nil =>
      have hbound := toNat_le_maxUInt64 left
      rw [wordFrom?, digits?, Option.filter_some_pos (by simpa using hbound),
        Option.map_some, UInt64.ofNat_toNat]
  | cons c cs ih =>
      rw [wordFrom?, appendDigit?, digits?]
      cases digit? c with
      | none => rfl
      | some d =>
          rw [Option.bind_some, Option.bind_some]
          by_cases hfits : left.toNat * 10 + d ≤ maxUInt64
          · have hnext : (left * 10 + .ofNat d).toNat = left.toNat * 10 + d := by
              rw [maxUInt64] at hfits
              rw [UInt64.toNat_add, UInt64.toNat_mul, UInt64.toNat_ofNat']
              change (left.toNat * 10 % 2 ^ 64 + d % 2 ^ 64) % 2 ^ 64 = _
              omega
            rw [if_pos hfits, Option.bind_some, ih, hnext]
          · rw [if_neg hfits, Option.bind_none]
            symm
            rw [Option.map_eq_none_iff, Option.filter_eq_none_iff]
            intro n hn
            have hle := le_of_digits? hn
            rw [decide_eq_true_eq]
            omega

theorem readWord?_eq (cs : List Char) : readWord? cs = readUInt64? cs := by
  have hrow (cs : List Char) :
      wordRow? cs = ((numeral? cs).filter (· ≤ maxUInt64)).map UInt64.ofNat := by
    cases cs with
    | nil => rfl
    | cons c cs => exact wordFrom?_eq 0 (c :: cs)
  rw [readUInt64?, read?]
  cases cs with
  | nil => exact hrow []
  | cons c cs =>
      by_cases hplus : c = '+'
      · rw [hplus]
        exact hrow cs
      · rw [readWord?.eq_2 _ fun _ h => hplus (List.cons_eq_cons.1 h).1,
          unsigned?.eq_2 _ fun _ h => hplus (List.cons_eq_cons.1 h).1]
        exact hrow (c :: cs)

/-! ### Writing -/

theorem digitChar_digitValue {c : Char} (hc : c.isDigit = true) :
    digitValue c < 10 ∧ (digitValue c).digitChar = c := by
  obtain ⟨hlow, hhigh⟩ := Char.isDigit_iff_toNat.1 hc
  change 48 ≤ c.toNat at hlow
  change c.toNat ≤ 57 at hhigh
  have hvalue : digitValue c = c.toNat - 48 := rfl
  refine ⟨by omega, Char.toNat_inj.1 ?_⟩
  rw [Nat.toNat_digitChar_of_lt_ten (by omega), hvalue]
  omega

/-- A row of digits with none too many in front is what is written for its value. -/
theorem toList_write_valueOf {digits : List Char} (hne : digits ≠ [])
    (hdigits : ∀ c ∈ digits, c.isDigit = true) (hhead : digits.head? ≠ some '0') :
    0 < valueOf digits ∧ (write (valueOf digits)).toList = digits := by
  induction digits using List.reverseRecOn with
  | nil => exact absurd rfl hne
  | append_singleton digits c ih =>
      obtain ⟨hlt, hchar⟩ := digitChar_digitValue (hdigits c List.mem_concat_self)
      rw [valueOf_concat]
      cases digits with
      | nil =>
          have hvalue : valueOf [] * 10 + digitValue c = digitValue c := Nat.zero_add _
          have hpos : digitValue c ≠ 0 := by
            intro hzero
            rw [hzero] at hchar
            exact hhead (congrArg some hchar.symm)
          rw [hvalue, write, Nat.repr_of_lt hlt, String.toList_singleton, hchar]
          exact ⟨Nat.pos_of_ne_zero hpos, rfl⟩
      | cons d digits =>
          obtain ⟨hpos, htext⟩ := ih (List.cons_ne_nil d digits)
            (fun e he => hdigits e (List.mem_append_left _ he)) hhead
          have hlast : (valueOf (d :: digits) * 10 + digitValue c) % 10 = digitValue c := by omega
          have hrest :
              (valueOf (d :: digits) * 10 + digitValue c) / 10 = valueOf (d :: digits) := by
            omega
          refine ⟨by omega, ?_⟩
          rw [write, Nat.repr_of_ge (by omega), String.toList_append, ← write, hrest, hlast, htext,
            String.toList_singleton, hchar]

/-- What is written for the value of a numeral is the bare numeral. -/
theorem IsNumeral.toList_write {cs : List Char} {n : Nat} (h : IsNumeral cs n) :
    (write n).toList = bare cs := by
  obtain ⟨sign, digits, rfl, hsign, hne, hdigits, rfl⟩ := h
  have hunsigned : (if (sign ++ digits).head? = some '+' then (sign ++ digits).tail
      else sign ++ digits) = digits := by
    rcases hsign with rfl | rfl
    · refine if_neg fun hplus => ?_
      exact absurd (hdigits '+' (List.mem_of_head? hplus)) (by decide)
    · rfl
  rw [bare, hunsigned, ← valueOf_dropWhile_zero digits]
  cases hrest : digits.dropWhile (· = '0') with
  | nil => rfl
  | cons c rest =>
      refine (toList_write_valueOf (List.cons_ne_nil c rest) (fun e he => ?_) ?_).2
      · exact hdigits e ((List.dropWhile_sublist _).subset (hrest ▸ he))
      · have hhead := List.head?_dropWhile_not (fun d : Char => decide (d = '0')) digits
        rw [hrest] at hhead
        simpa using hhead

end Decimal

namespace Version

/-! ### Versions -/

/-- The text stands for the version: two numerals of words, parted by the first point. -/
def Denotes (s : String) (v : Version) : Prop :=
  ∃ before after, s.toList = before ++ '.' :: after ∧ '.' ∉ before ∧
    Decimal.IsNumeral before v.generation.toNat ∧ Decimal.IsNumeral after v.value.toNat

theorem splitPoint_eq_none {cs : List Char} (hcs : '.' ∉ cs) : splitPoint cs = none := by
  induction cs with
  | nil => rfl
  | cons c cs ih =>
      rw [List.mem_cons, not_or] at hcs
      rw [splitPoint, if_neg (Ne.symm hcs.1), ih hcs.2]
      rfl

theorem parse_of_no_point {s : String} (hs : '.' ∉ s.toList) :
    parse s = .error (.malformed s) := by
  rw [parse, splitPoint_eq_none hs]

/-- With a point in the text, its two sides decide. -/
theorem parse_of_point {s : String} {before after : List Char}
    (hs : s.toList = before ++ '.' :: after) (hpoint : '.' ∉ before) :
    (∀ v, parse s = .ok v ↔ Decimal.IsNumeral before v.generation.toNat ∧
      Decimal.IsNumeral after v.value.toNat) ∧
    ((∃ v, parse s = .ok v) ∨ parse s = .error (.notNumeric s)) := by
  simp only [parse, hs, splitPoint_append hpoint, ← Decimal.readUInt64?_eq_some_iff]
  cases Decimal.readUInt64? before with
  | none => simp
  | some g =>
      cases Decimal.readUInt64? after with
      | none => simp
      | some v =>
          refine ⟨fun w => ?_, .inl ⟨_, rfl⟩⟩
          simp only [Except.ok.injEq, Option.some.injEq]
          constructor
          · rintro rfl
            exact ⟨rfl, rfl⟩
          · rintro ⟨rfl, rfl⟩
            rfl

theorem parse_eq_ok_iff {s : String} {v : Version} : parse s = .ok v ↔ Denotes s v := by
  constructor
  · intro h
    by_cases hpoint : '.' ∈ s.toList
    · obtain ⟨before, after, hs, hbefore⟩ := List.eq_append_cons_of_mem hpoint
      exact ⟨before, after, hs, hbefore, ((parse_of_point hs hbefore).1 v).1 h⟩
    · rw [parse_of_no_point hpoint] at h
      cases h
  · rintro ⟨before, after, hs, hbefore, hnumerals⟩
    exact ((parse_of_point hs hbefore).1 v).2 hnumerals

theorem toOption_parse_eq_some_iff {s : String} {v : Version} :
    (parse s).toOption = some v ↔ Denotes s v := by
  rw [← parse_eq_ok_iff]
  cases parse s <;> simp [Except.toOption]

theorem whole?_quote (s : String) : Json.whole? Json.string? (Json.quote s) = some s := by
  have hquote : Json.skipBlank (Json.quote s) = Json.quote s ++ [] := by
    simpa using Json.skipBlank_quote s []
  rw [Json.whole?, Json.string?_of_quote hquote]
  rfl

theorem ofJsonText?_eq_some_iff {b : Bytes} {v : Version} :
    ofJsonText? b = some v ↔ ∃ s, Json.whole? Json.string? b = some s ∧ Denotes s v := by
  simp only [ofJsonText?, Option.bind_eq_some_iff, toOption_parse_eq_some_iff]

/-- A text is read as a version exactly if it stands for it: two numerals are parted by its first
point, each an optional plus sign and one digit or more, with a value of 64 bits. A text without a
point is malformed, and any other one that stands for no version has a part that is no such
numeral. What is written for the version that was read is the text without the plus signs and
without superfluous zeros in front of its two parts, and what is written for any version is read as
this version. As JSON, the texts are the same: a version is read from a string exactly if the string
stands for it, and written as the string of its text. To read a numeral digit by digit and give up
at the first overflow of a word comes to the same. -/
theorem read_exactly (s : String) :
    (∀ v, parse s = .ok v ↔ Denotes s v) ∧
    (parse s = .error (.malformed s) ↔ '.' ∉ s.toList) ∧
    (parse s = .error (.notNumeric s) ↔ '.' ∈ s.toList ∧ ∀ v, ¬ Denotes s v) ∧
    (∀ v before after, parse s = .ok v → s.toList = before ++ '.' :: after → '.' ∉ before →
      v.text.toList = Decimal.bare before ++ '.' :: Decimal.bare after) ∧
    (∀ v : Version, parse v.text = .ok v) ∧
    (∀ v, ofJsonText? (Json.quote s) = some v ↔ Denotes s v) ∧
    (∀ b v, ofJsonText? b = some v ↔
      ∃ t, Json.whole? Json.string? b = some t ∧ Denotes t v) ∧
    (∀ v : Version, Json.whole? Json.string? v.jsonText = some v.text) ∧
    ∀ cs, Decimal.readWord? cs = Decimal.readUInt64? cs := by
  refine ⟨fun v => parse_eq_ok_iff, ?_, ?_, fun v before after hv hs hbefore => ?_, parse_text,
    fun v => ?_, fun b v => ofJsonText?_eq_some_iff, fun v => whole?_quote v.text,
    Decimal.readWord?_eq⟩
  · refine ⟨fun h hpoint => ?_, parse_of_no_point⟩
    obtain ⟨before, after, hs, hbefore⟩ := List.eq_append_cons_of_mem hpoint
    rcases (parse_of_point hs hbefore).2 with ⟨v, hv⟩ | hnumeric
    · cases h.symm.trans hv
    · cases h.symm.trans hnumeric
  · constructor
    · intro h
      refine ⟨?_, fun v hv => ?_⟩
      · by_contra hpoint
        cases h.symm.trans (parse_of_no_point hpoint)
      · cases h.symm.trans (parse_eq_ok_iff.2 hv)
    · rintro ⟨hpoint, hnone⟩
      obtain ⟨before, after, hs, hbefore⟩ := List.eq_append_cons_of_mem hpoint
      rcases (parse_of_point hs hbefore).2 with ⟨v, hv⟩ | hnumeric
      · exact absurd (parse_eq_ok_iff.1 hv) (hnone v)
      · exact hnumeric
  · obtain ⟨hgeneration, hvalue⟩ := ((parse_of_point hs hbefore).1 v).1 hv
    rw [text, String.toList_append, String.toList_append, hgeneration.toList_write,
      hvalue.toList_write]
    simp
  · rw [ofJsonText?_eq_some_iff, whole?_quote]
    simp

/-- Plus signs and zeros do no harm; the second point is no part of a numeral. -/
example : parse "+007.0" = .ok ⟨7, 0⟩ ∧ parse "1.2.3" = .error (.notNumeric "1.2.3") ∧
    parse "18446744073709551616.0" = .error (.notNumeric "18446744073709551616.0") := by
  decide +kernel

end Version

end Conflux

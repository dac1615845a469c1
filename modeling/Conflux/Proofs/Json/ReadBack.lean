import Conflux.Json.Printer
import Conflux.Json.Record
import Mathlib.Data.Nat.Basic
import Mathlib.Tactic.SplitIfs

/-!
What is printed can be read back: strings and numbers, and containers item by item. A
reader takes only what it needs from the front of the input, so each lemma leaves room for
whatever comes behind what was printed, and for blanks in front of it.
-/

namespace Conflux.Json

/-! ### Blanks -/

def isBlank (b : UInt8) : Bool := b == 0x20 || b == 0x0a || b == 0x0d || b == 0x09

theorem skipBlank_cons_of_blank {b : UInt8} (h : isBlank b = true) (s : Bytes) :
    skipBlank (b :: s) = skipBlank s := by
  rw [skipBlank, if_pos (by simpa [isBlank, or_assoc] using h)]

theorem skipBlank_cons {b : UInt8} (h : isBlank b = false) (s : Bytes) :
    skipBlank (b :: s) = b :: s := by
  rw [skipBlank, if_neg (by simpa [isBlank, and_assoc] using h)]

@[simp] theorem skipBlank_newline (depth : Nat) (s : Bytes) :
    skipBlank (newline depth ++ s) = skipBlank s := by
  rw [newline, List.cons_append, skipBlank_cons_of_blank rfl]
  induction 2 * depth with
  | zero => rfl
  | succ n ih => rw [List.replicate_succ, List.cons_append, skipBlank_cons_of_blank rfl, ih]

/-! ### Strings -/

/-- A control character is written as its number. -/
theorem control_escape (b : UInt8) (h : b < 0x20) :
    hex4? 0x30 0x30 (0x30 + b / 16) (UInt8.ofNat (Bytes.hexDigit (b.toNat % 16)).toNat) =
        some b.toNat ∧
      isLowSurrogate b.toNat = false ∧ isHighSurrogate b.toNat = false ∧
        encodeChar b.toNat = [b] := by
  have hall : ∀ n, n < 32 →
      hex4? 0x30 0x30 (0x30 + UInt8.ofNat n / 16)
          (UInt8.ofNat (Bytes.hexDigit ((UInt8.ofNat n).toNat % 16)).toNat) =
        some (UInt8.ofNat n).toNat ∧
      isLowSurrogate (UInt8.ofNat n).toNat = false ∧
        isHighSurrogate (UInt8.ofNat n).toNat = false ∧
          encodeChar (UInt8.ofNat n).toNat = [UInt8.ofNat n] := by
    decide +kernel
  have hb := hall b.toNat (UInt8.lt_iff_toNat_lt.1 h)
  rwa [UInt8.ofNat_toNat] at hb

/-- An escaped byte is read as the byte that it stands for. -/
theorem stringBytes?_escapeByte (b : UInt8) (s : Bytes) :
    stringBytes? (escapeByte b ++ s) = (stringBytes? s).map fun p => (b :: p.1, p.2) := by
  have hshort {e : UInt8} (he : e ≠ 0x75) (hb : shortEscape? e = some b) :
      stringBytes? (0x5c :: e :: s) = (stringBytes? s).map fun p => (b :: p.1, p.2) := by
    rw [stringBytes?, hb]
    intro _ _ _ _ _ hu
    exact absurd hu he
  rw [escapeByte]
  split_ifs with hquote hbackslash h h h h h hcontrol
  · exact hshort (by decide) (by rw [hquote]; rfl)
  · exact hshort (by decide) (by rw [hbackslash]; rfl)
  · exact hshort (by decide) (by rw [h]; rfl)
  · exact hshort (by decide) (by rw [h]; rfl)
  · exact hshort (by decide) (by rw [h]; rfl)
  · exact hshort (by decide) (by rw [h]; rfl)
  · exact hshort (by decide) (by rw [h]; rfl)
  · obtain ⟨hhex, hlow, hhigh, hchar⟩ := control_escape b hcontrol
    simp only [List.cons_append, List.nil_append]
    rw [stringBytes?, hhex]
    simp [hlow, hhigh, hchar]
  · rw [List.singleton_append, stringBytes?, if_neg (by simp [hcontrol, hbackslash])]
    · exact hquote
    · exact fun _ _ _ _ _ h _ => hbackslash h
    · exact fun _ _ h _ => hbackslash h

theorem stringBytes?_quoteBytes (b rest : Bytes) :
    stringBytes? (b.flatMap escapeByte ++ 0x22 :: rest) = some (b, rest) := by
  induction b with
  | nil => rw [List.flatMap_nil, List.nil_append, stringBytes?]
  | cons x b ih =>
      rw [List.flatMap_cons, List.append_assoc, stringBytes?_escapeByte, ih]
      rfl

theorem quote_append (t : String) (rest : Bytes) :
    quote t ++ rest = 0x22 :: ((Bytes.ofText t).flatMap escapeByte ++ 0x22 :: rest) := by
  simp [quote, quoteBytes]

@[simp] theorem skipBlank_quote (t : String) (rest : Bytes) :
    skipBlank (quote t ++ rest) = quote t ++ rest := by
  rw [quote_append, skipBlank_cons rfl]

/-- A quoted text is read back, whatever characters it has. -/
theorem string?_of_quote {t : String} {s rest : Bytes} (hs : skipBlank s = quote t ++ rest) :
    string? s = some (t, rest) := by
  rw [string?, hs, quote_append]
  simp [stringBody?, stringBytes?_quoteBytes]

/-! ### Numbers -/

def digitByte (d : Nat) : UInt8 := UInt8.ofNat (48 + d)

theorem digitByte_spec : ∀ d, d < 10 → isDigit (digitByte d) = true ∧
    (digitByte d).toNat - 48 = d ∧ isBlank (digitByte d) = false := by
  decide

/-- What is written for a number: its decimal digits, the first of which is zero only for
zero itself. -/
theorem ofText_write (n : Nat) : ∃ ds : List Nat,
    Bytes.ofText (Decimal.write n) = ds.map digitByte ∧ (∀ d ∈ ds, d < 10) ∧
      Numeral.valueOf ds = n ∧ ∃ d rest, ds = d :: rest ∧ (d = 0 → rest = []) := by
  have hone {d : Nat} (hd : d < 10) :
      Bytes.ofText (String.singleton d.digitChar) = [digitByte d] := by
    have hall : ∀ d, d < 10 → Bytes.ofText (String.singleton d.digitChar) = [digitByte d] := by
      decide +kernel
    exact hall d hd
  induction n using Nat.strongRecOn with
  | ind n ih =>
    by_cases hn : n < 10
    · refine ⟨[n], ?_, by simpa using hn, by simp [Numeral.valueOf], n, [], rfl, fun _ => rfl⟩
      rw [Decimal.write, Nat.repr_of_lt hn]
      exact hone hn
    · obtain ⟨ds, hds, hdigits, hvalue, d, rest, rfl, hzero⟩ := ih (n / 10) (by omega)
      have hlast : n % 10 < 10 := Nat.mod_lt n (by decide)
      refine ⟨d :: rest ++ [n % 10], ?_, ?_, ?_, d, rest ++ [n % 10], rfl, ?_⟩
      · rw [Decimal.write, Nat.repr_of_ge (by omega), Bytes.ofText_append, ← Decimal.write, hds,
          hone hlast, List.map_append]
        rfl
      · intro e he
        rcases List.mem_append.1 he with he | he
        · exact hdigits e he
        · exact List.mem_singleton.1 he ▸ hlast
      · rw [Numeral.valueOf, List.foldl_append, ← Numeral.valueOf, hvalue]
        simp only [List.foldl_cons, List.foldl_nil]
        omega
      · intro hd
        -- A number of two digits or more does not begin with a zero.
        rw [hzero hd, hd, Numeral.valueOf] at hvalue
        simp only [List.foldl_cons, List.foldl_nil] at hvalue
        omega

def endsNumeral : Bytes → Prop
  | [] => True
  | b :: _ => isDigit b = false ∧ b ≠ 0x2e ∧ b ≠ 0x65 ∧ b ≠ 0x45

theorem endsNumeral_comma (rest : Bytes) : endsNumeral (0x2c :: rest) := by
  simp [endsNumeral, isDigit]

theorem endsNumeral_newline (depth : Nat) (rest : Bytes) :
    endsNumeral (newline depth ++ rest) := by
  simp [newline, endsNumeral, isDigit]

theorem spanDigits_append {ds : List Nat} (hds : ∀ d ∈ ds, d < 10) {rest : Bytes}
    (hrest : endsNumeral rest) : spanDigits (ds.map digitByte ++ rest) = (ds, rest) := by
  induction ds with
  | nil =>
      cases rest with
      | nil => rfl
      | cons b rest => simp [spanDigits, hrest.1]
  | cons d ds ih =>
      obtain ⟨hdigit, hvalue, _⟩ := digitByte_spec d (hds d List.mem_cons_self)
      have hmore := ih fun e he => hds e (List.mem_cons_of_mem d he)
      simp [spanDigits, hdigit, hmore, hvalue]

theorem wholePart?_digits {d : Nat} {more : List Nat} (hds : ∀ e ∈ d :: more, e < 10)
    (hzero : d = 0 → more = []) {rest : Bytes} (hrest : endsNumeral rest) :
    wholePart? ((d :: more).map digitByte ++ rest) = some (d :: more, rest) := by
  have hdigits : digits1? ((d :: more).map digitByte ++ rest) = some (d :: more, rest) := by
    rw [digits1?, spanDigits_append hds hrest]
  rw [wholePart?, hdigits]
  rcases d with _ | d
  · rw [hzero rfl]
    rfl
  · rfl

theorem fractionPart?_endsNumeral {rest : Bytes} (hrest : endsNumeral rest) :
    fractionPart? rest = some (none, rest) := by
  cases rest with
  | nil => rfl
  | cons b rest =>
      rw [fractionPart?]
      exact fun _ h => hrest.2.1 (List.head_eq_of_cons_eq h)

theorem exponentPart?_endsNumeral {rest : Bytes} (hrest : endsNumeral rest) :
    exponentPart? rest = some (none, rest) := by
  cases rest with
  | nil => rfl
  | cons b rest => simp [exponentPart?, hrest.2.2]

/-- The numeral of a number begins with a digit, and is taken apart as its digits. -/
theorem unsignedNumeral?_write (n : Nat) : ∃ b r ds,
    Bytes.ofText (Decimal.write n) = b :: r ∧ isDigit b = true ∧ isBlank b = false ∧
      Numeral.valueOf ds = n ∧
        ∀ negative rest, endsNumeral rest →
          unsignedNumeral? negative (b :: r ++ rest) =
            some (⟨negative, ds, none, none⟩, rest) := by
  obtain ⟨ds, hds, hdigits, hvalue, d, more, rfl, hzero⟩ := ofText_write n
  obtain ⟨hdigit, _, hblank⟩ := digitByte_spec d (hdigits d List.mem_cons_self)
  refine ⟨_, _, _, hds, hdigit, hblank, hvalue, fun negative rest hrest => ?_⟩
  rw [unsignedNumeral?, ← List.map_cons, wholePart?_digits hdigits hzero hrest]
  simp [fractionPart?_endsNumeral hrest, exponentPart?_endsNumeral hrest]

@[simp] theorem skipBlank_write (n : Nat) (rest : Bytes) :
    skipBlank (Bytes.ofText (Decimal.write n) ++ rest) =
      Bytes.ofText (Decimal.write n) ++ rest := by
  obtain ⟨b, r, ds, hwrite, _, hblank, _⟩ := unsignedNumeral?_write n
  rw [hwrite, List.cons_append, skipBlank_cons hblank]

/-- A digit begins a number and nothing else. -/
theorem scalar?_of_isDigit {b : UInt8} (hb : isDigit b = true) {s r : Bytes}
    (hs : skipBlank s = b :: r) :
    scalar? s = (unsignedNumeral? false (b :: r)).bind fun p =>
      p.1.value?.bind fun v => some (v, p.2) := by
  have hno {c : UInt8} (hc : isDigit c = false) (h : b = c) : False := by
    rw [h, hc] at hb
    cases hb
  have hnumeral : numeral? (b :: r) = unsignedNumeral? false (b :: r) := by
    rw [numeral?]
    exact fun _ h => hno rfl (List.head_eq_of_cons_eq h)
  rw [scalar?, hs]
  split
  · next h => exact (hno rfl (List.head_eq_of_cons_eq h)).elim
  · next h => exact (hno rfl (List.head_eq_of_cons_eq h)).elim
  · next h => exact (hno rfl (List.head_eq_of_cons_eq h)).elim
  · next h => exact (hno rfl (List.head_eq_of_cons_eq h)).elim
  · rw [hnumeral]
    rfl

/-- A number is read back. -/
theorem scalar?_write {n : Nat} (hword : n < Numeral.wordBound) {s rest : Bytes}
    (hs : skipBlank s = Bytes.ofText (Decimal.write n) ++ rest) (hrest : endsNumeral rest) :
    scalar? s = some (.int n, rest) := by
  obtain ⟨b, r, ds, hwrite, hdigit, _, hvalue, hnumeral⟩ := unsignedNumeral?_write n
  have hint : Numeral.value? ⟨false, ds, none, none⟩ = some (.int n) := by
    simp [Numeral.value?, hvalue, hword]
  rw [hwrite, List.cons_append] at hs
  rw [scalar?_of_isDigit hdigit hs, ← List.cons_append, hnumeral false rest hrest]
  simp [hint]

/-- A number behind a blank is read back. -/
theorem natural?_write {bound n : Nat} (hn : n ≤ bound) (hword : n < Numeral.wordBound)
    {rest : Bytes} (hrest : endsNumeral rest) :
    natural? bound (0x20 :: (Bytes.ofText (Decimal.write n) ++ rest)) = some (n, rest) := by
  have hs : skipBlank (0x20 :: (Bytes.ofText (Decimal.write n) ++ rest)) =
      Bytes.ofText (Decimal.write n) ++ rest := by
    rw [skipBlank_cons_of_blank rfl, skipBlank_write]
  simp [natural?, scalar?_write hword hs hrest, hn]

/-! ### Sequences -/

/-- The items at the front of an input, read with any fuel for `n` items. -/
def Reads {α : Type} (close : UInt8) (item : Nat → Scan α) (n i : Nat) (s : Bytes)
    (xs : List α) (rest : Bytes) : Prop :=
  ∀ fuel : Bytes, n ≤ fuel.length → itemsFrom? close item fuel i s = some (xs, rest)

section

variable {α : Type} {close : UInt8} {item : Nat → Scan α} {n i : Nat} {s r t rest : Bytes}
  {x : α} {xs : List α}

theorem Reads.last (hitem : item i s = some (x, r)) (hclose : skipBlank r = close :: rest) :
    Reads close item 1 i s [x] rest := by
  intro fuel hfuel
  cases fuel with
  | nil => simp at hfuel
  | cons b fuel => simp [itemsFrom?, hitem, hclose]

theorem Reads.more (hitem : item i s = some (x, r)) (hcomma : skipBlank r = 0x2c :: t)
    (hclose : close ≠ 0x2c) (hmore : Reads close item n (i + 1) t xs rest) :
    Reads close item (n + 1) i s (x :: xs) rest := by
  intro fuel hfuel
  cases fuel with
  | nil => simp at hfuel
  | cons b fuel =>
      have hxs := hmore fuel (by simpa using hfuel)
      simp [itemsFrom?, hitem, hcomma, hclose.symm, hxs]

theorem Reads.sequence? {b : UInt8} (h : Reads close item n 0 (b :: r) xs rest)
    (hs : skipBlank s = b :: r) (hb : b ≠ close) (hn : n ≤ s.length) :
    sequence? close item s = some (xs, rest) := by
  simp [Json.sequence?, hs, hb, h s hn]

end

def line (depth : Nat) (name : String) (text rest : Bytes) : Bytes :=
  newline depth ++ (quote name ++ 0x3a :: 0x20 :: (text ++ rest))

theorem skipBlank_line (depth : Nat) (name : String) (text rest : Bytes) :
    skipBlank (line depth name text rest) = quote name ++ 0x3a :: 0x20 :: (text ++ rest) := by
  rw [line, skipBlank_newline, skipBlank_quote]

theorem skipBlank_line_eq_cons (depth : Nat) (name : String) (text rest : Bytes) :
    ∃ r, skipBlank (line depth name text rest) = 0x22 :: r := by
  rw [skipBlank_line, quote_append]
  exact ⟨_, rfl⟩

/-- A member is read back if its value is. -/
theorem member?_line {α : Type} {value : String → Scan α} {depth : Nat} {name : String} {x : α}
    {s text rest : Bytes} (hs : skipBlank s = skipBlank (line depth name text rest))
    (hvalue : value name (0x20 :: (text ++ rest)) = some (x, rest)) :
    member? value s = some ((name, x), rest) := by
  rw [skipBlank_line] at hs
  simp [member?, string?_of_quote hs, skipBlank_cons (b := 0x3a) rfl, hvalue]

section

variable {α : Type} {item : Scan α} {print : α → Json} {depth : Nat}
  (hprint : ∀ x, ∃ t, (print x).indented (depth + 1) = 0x7b :: t)
  (hitem : ∀ x s rest, skipBlank s = (print x).indented (depth + 1) ++ rest →
    item s = some (x, rest))

include hprint in
theorem skipBlank_indented (x : α) (rest : Bytes) :
    skipBlank ((print x).indented (depth + 1) ++ rest) =
      (print x).indented (depth + 1) ++ rest := by
  obtain ⟨t, ht⟩ := hprint x
  rw [ht, List.cons_append, skipBlank_cons rfl]

theorem length_le_indentedItems (xs : List α) :
    xs.length ≤ (indentedItems depth (xs.map print)).length := by
  induction xs with
  | nil => simp
  | cons x xs ih =>
      simp only [List.map_cons, indentedItems, List.length_cons, List.length_append]
      omega

include hprint hitem

theorem reads_indentedItems (x : α) (xs : List α) (i : Nat) {s r rest : Bytes}
    (hs : skipBlank s = (print x).indented (depth + 1) ++
      (indentedItems (depth + 1) (xs.map print) ++ r))
    (hr : skipBlank r = 0x5d :: rest) :
    Reads 0x5d (fun _ => item) (xs.length + 1) i s (x :: xs) rest := by
  induction xs generalizing x i s with
  | nil => exact .last (hitem x s _ hs) hr
  | cons y xs ih =>
      have hmore := ih y (i + 1)
        (s := newline (depth + 1) ++ ((print y).indented (depth + 1) ++
          (indentedItems (depth + 1) (xs.map print) ++ r)))
        (by rw [skipBlank_newline, skipBlank_indented hprint])
      refine .more (hitem x s _ hs) ?_ (by decide) hmore
      rw [List.map_cons, indentedItems, List.cons_append, skipBlank_cons rfl]
      simp

/-- A list of objects is read back if each object is. -/
theorem list?_indented (xs : List α) (rest : Bytes) :
    list? item ((array (xs.map print)).indented depth ++ rest) = some (xs, rest) := by
  cases xs with
  | nil => rfl
  | cons x xs =>
      have hend : skipBlank (newline depth ++ 0x5d :: rest) = 0x5d :: rest := by
        rw [skipBlank_newline, skipBlank_cons rfl]
      have hreads := reads_indentedItems hprint hitem x xs 0
        (skipBlank_indented hprint x _) hend
      have htext : (array ((x :: xs).map print)).indented depth ++ rest =
          0x5b :: (newline (depth + 1) ++ ((print x).indented (depth + 1) ++
            (indentedItems (depth + 1) (xs.map print) ++ (newline depth ++ 0x5d :: rest)))) := by
        simp [indented]
      rw [htext, list?, skipBlank_cons rfl]
      obtain ⟨t, ht⟩ := hprint x
      have hlength : xs.length ≤ (indentedItems (depth + 1) (xs.map print)).length :=
        length_le_indentedItems xs
      rw [ht, List.cons_append] at hreads ⊢
      refine hreads.sequence? (by rw [skipBlank_newline, skipBlank_cons rfl]) (by decide) ?_
      simp only [List.length_append, List.length_cons]
      omega

end

end Conflux.Json

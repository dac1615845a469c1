import Conflux.Proofs.Json.Compact
import Mathlib.Data.String.Basic

/-!
Values that are read back as they were written: their numbers are whole and fit 64 bits, and
their objects list each name once, in ascending order, as the reader does. The reader has so
much room for containers in containers, and the round trip goes by induction on that room: to
be read, a value must not be nested deeper.
-/

namespace Conflux.Json

mutual

/-- The numbers are whole and fit 64 bits, with a sign or without, and the names of every object
ascend, as the reader puts them. -/
def isExact : Json → Bool
  | null | bool _ | string _ => true
  | int i => decide (-0x8000000000000000 ≤ i ∧ i < Numeral.wordBound)
  | double _ => false
  | array items => itemsExact items
  | object members => decide ((members.map (·.1)).Pairwise (· < ·)) && membersExact members

def itemsExact : List Json → Bool
  | [] => true
  | x :: xs => isExact x && itemsExact xs

def membersExact : List (String × Json) → Bool
  | [] => true
  | (_, x) :: ms => isExact x && membersExact ms

end

mutual

def depth : Json → Nat
  | null | bool _ | int _ | double _ | string _ => 0
  | array items => itemsDepth items + 1
  | object members => membersDepth members + 1

def itemsDepth : List Json → Nat
  | [] => 0
  | x :: xs => max (depth x) (itemsDepth xs)

def membersDepth : List (String × Json) → Nat
  | [] => 0
  | (_, x) :: ms => max (depth x) (membersDepth ms)

end

theorem itemsExact_iff {xs : List Json} :
    itemsExact xs = true ↔ ∀ x ∈ xs, x.isExact = true := by
  induction xs with
  | nil => simp [itemsExact]
  | cons x xs ih => simp [itemsExact, ih]

theorem membersExact_iff {ms : List (String × Json)} :
    membersExact ms = true ↔ ∀ m ∈ ms, m.2.isExact = true := by
  induction ms with
  | nil => simp [membersExact]
  | cons m ms ih => simp [membersExact, ih]

theorem itemsDepth_le_iff {xs : List Json} {n : Nat} :
    itemsDepth xs ≤ n ↔ ∀ x ∈ xs, x.depth ≤ n := by
  induction xs with
  | nil => simp [itemsDepth]
  | cons x xs ih => simp [itemsDepth, ih]

theorem membersDepth_le_iff {ms : List (String × Json)} {n : Nat} :
    membersDepth ms ≤ n ↔ ∀ m ∈ ms, m.2.depth ≤ n := by
  induction ms with
  | nil => simp [membersDepth]
  | cons m ms ih => simp [membersDepth, ih]

/-! ### Objects -/

theorem putMember_of_lt {k : String} {sorted : List (String × Json)}
    (h : ∀ m ∈ sorted, m.1 < k) (v : Json) : putMember k v sorted = sorted ++ [(k, v)] := by
  induction sorted with
  | nil => rfl
  | cons m sorted ih =>
      have hlt : m.1 < k := h m List.mem_cons_self
      have hrest := ih fun n hn => h n (List.mem_cons_of_mem m hn)
      rw [putMember, if_neg hlt.asymm, if_neg hlt.ne', hrest]
      rfl

theorem foldl_putMember (sorted : List (String × Json)) {ms : List (String × Json)}
    (h : ((sorted ++ ms).map (·.1)).Pairwise (· < ·)) :
    ms.foldl (fun sorted m => putMember m.1 m.2 sorted) sorted = sorted ++ ms := by
  induction ms generalizing sorted with
  | nil => rw [List.foldl_nil, List.append_nil]
  | cons m ms ih =>
      have hlast : ∀ n ∈ sorted, n.1 < m.1 := by
        intro n hn
        rw [List.map_append, List.pairwise_append] at h
        exact h.2.2 _ (List.mem_map_of_mem hn) _ List.mem_cons_self
      rw [List.foldl_cons, putMember_of_lt hlast, ih _, List.append_assoc]
      · rfl
      · rwa [List.append_assoc]

/-- Members that are in order stay as they are. -/
theorem ofMembers_of_ascending {ms : List (String × Json)}
    (h : (ms.map (·.1)).Pairwise (· < ·)) : ofMembers ms = object ms :=
  congrArg object (foldl_putMember [] h)

/-! ### Scalars -/

variable {rest : Bytes}

theorem value?_cons {b : UInt8} (hblank : isBlank b = false) (harray : b ≠ 0x5b)
    (hobject : b ≠ 0x7b) (room : Nat) (s : Bytes) :
    value? room (b :: s) = scalar? (b :: s) := by
  cases room with
  | zero => rfl
  | succ room =>
      rw [value?]
      dsimp only
      rw [skipBlank_cons hblank]
      split
      · next h => exact absurd (List.head_eq_of_cons_eq h) harray
      · next h => exact absurd (List.head_eq_of_cons_eq h) hobject
      · rfl

theorem value?_quote (room : Nat) (t : String) (rest : Bytes) :
    value? room (quote t ++ rest) = some (.string t, rest) := by
  have hstring : string? (quote t ++ rest) = some (t, rest) :=
    string?_of_quote (skipBlank_quote t rest)
  rw [quote_append] at hstring ⊢
  rw [string?, skipBlank_cons (b := 0x22) rfl] at hstring
  rw [value?_cons (b := 0x22) rfl (by decide) (by decide), scalar?,
    skipBlank_cons (b := 0x22) rfl]
  change (stringBody? _).map _ = _
  rw [show stringBody? _ = some (t, rest) from hstring]
  rfl

theorem value?_null (room : Nat) (rest : Bytes) :
    value? room (null.compact ++ rest) = some (.null, rest) := by
  have htext : Bytes.ofText "null" = [0x6e, 0x75, 0x6c, 0x6c] := by decide +kernel
  rw [compact, htext, List.cons_append, value?_cons rfl (by decide) (by decide), scalar?,
    skipBlank_cons rfl]
  rfl

theorem value?_bool (room : Nat) (b : Bool) (rest : Bytes) :
    value? room ((bool b).compact ++ rest) = some (.bool b, rest) := by
  have htrue : Bytes.ofText "true" = [0x74, 0x72, 0x75, 0x65] := by decide +kernel
  have hfalse : Bytes.ofText "false" = [0x66, 0x61, 0x6c, 0x73, 0x65] := by decide +kernel
  cases b with
  | true =>
      rw [compact, if_pos rfl, htrue, List.cons_append, value?_cons rfl (by decide) (by decide),
        scalar?, skipBlank_cons rfl]
      rfl
  | false =>
      rw [compact, if_neg (by decide), hfalse, List.cons_append,
        value?_cons rfl (by decide) (by decide), scalar?, skipBlank_cons rfl]
      rfl

theorem value?_write {n : Nat} (hword : n < Numeral.wordBound) (room : Nat)
    (hrest : endsNumeral rest) :
    value? room (Bytes.ofText (Decimal.write n) ++ rest) = some (.int n, rest) := by
  have hscalar := scalar?_write hword (skipBlank_write n rest) hrest
  obtain ⟨b, r, _, hwrite, hdigit, hblank, _⟩ := unsignedNumeral?_write n
  have hno {c : UInt8} (hc : isDigit c = false) : b ≠ c := fun h => by
    rw [h, hc] at hdigit
    cases hdigit
  rw [hwrite, List.cons_append] at hscalar ⊢
  rw [value?_cons hblank (hno rfl) (hno rfl), hscalar]

theorem value?_minus {n : Nat} (hpos : 0 < n) (hbound : n ≤ 0x8000000000000000) (room : Nat)
    (hrest : endsNumeral rest) :
    value? room (0x2d :: (Bytes.ofText (Decimal.write n) ++ rest)) = some (.int (-n), rest) := by
  obtain ⟨b, r, ds, hwrite, _, _, hvalue, hnumeral⟩ := unsignedNumeral?_write n
  have hint : Numeral.value? ⟨true, ds, none, none⟩ = some (.int (-n)) := by
    simp [Numeral.value?, hvalue, hpos, hbound]
  rw [hwrite, value?_cons rfl (by decide) (by decide), scalar?, skipBlank_cons rfl]
  change (unsignedNumeral? true (b :: r ++ rest)).bind _ = _
  rw [hnumeral true rest hrest]
  simp [hint]

theorem compact_of_neg {i : Int} (hi : i < 0) :
    (int i).compact = 0x2d :: Bytes.ofText (Decimal.write i.natAbs) := by
  have hminus : Bytes.ofText "-" = [0x2d] := by decide +kernel
  rw [compact, intText, if_pos hi, Bytes.ofText_append, hminus]
  rfl

theorem compact_of_not_neg {i : Int} (hi : ¬ i < 0) :
    (int i).compact = Bytes.ofText (Decimal.write i.natAbs) := by
  rw [compact, intText, if_neg hi]

theorem value?_int {i : Int} (hlow : -0x8000000000000000 ≤ i) (hhigh : i < Numeral.wordBound)
    (room : Nat) (hrest : endsNumeral rest) :
    value? room ((int i).compact ++ rest) = some (.int i, rest) := by
  by_cases hi : i < 0
  · have habs : -(i.natAbs : Int) = i := by omega
    rw [compact_of_neg hi, List.cons_append,
      value?_minus (by omega : 0 < i.natAbs) (by omega) room hrest, habs]
  · have habs : (i.natAbs : Int) = i := by omega
    rw [compact_of_not_neg hi, value?_write (by omega : i.natAbs < Numeral.wordBound) room hrest,
      habs]

/-! ### Containers -/

theorem compact_int_eq_cons (i : Int) :
    ∃ b r, (int i).compact = b :: r ∧ isBlank b = false ∧ b ≠ 0x5d := by
  by_cases hi : i < 0
  · exact ⟨0x2d, _, compact_of_neg hi, rfl, by decide⟩
  · obtain ⟨b, r, _, hwrite, hdigit, hblank, _⟩ := unsignedNumeral?_write i.natAbs
    refine ⟨b, r, (compact_of_not_neg hi).trans hwrite, hblank, ?_⟩
    rintro rfl
    cases hdigit

/-- No value begins with a blank or with the end of a list. -/
theorem compact_eq_cons {j : Json} (hj : j.isExact = true) :
    ∃ b r, j.compact = b :: r ∧ isBlank b = false ∧ b ≠ 0x5d := by
  cases j with
  | null => exact ⟨0x6e, _, rfl, rfl, by decide⟩
  | bool b => cases b <;> exact ⟨_, _, rfl, rfl, by decide⟩
  | int i => exact compact_int_eq_cons i
  | double x => cases hj
  | string s => exact ⟨0x22, _, rfl, rfl, by decide⟩
  | array items => exact ⟨0x5b, _, rfl, rfl, by decide⟩
  | object members => exact ⟨0x7b, _, rfl, rfl, by decide⟩

theorem sequence?_compactItems {item : Scan Json} {xs : List Json} (hxs : itemsExact xs = true)
    (hitem : ∀ x ∈ xs, ∀ rest, endsNumeral rest → item (x.compact ++ rest) = some (x, rest))
    (rest : Bytes) :
    sequence? 0x5d (fun _ => item) (compactItems xs ++ 0x5d :: rest) = some (xs, rest) := by
  cases xs with
  | nil => rfl
  | cons x xs =>
      obtain ⟨b, r, hcompact, hblank, hb⟩ :=
        compact_eq_cons (itemsExact_iff.1 hxs x List.mem_cons_self)
      have hreads := reads_compactItems (i := 0) x xs hitem rest
      have hlength := length_le_compactMoreItems xs
      rw [compactItems, hcompact] at hreads ⊢
      refine hreads.sequence? (skipBlank_cons hblank _) hb ?_
      simp only [List.length_append, List.length_cons]
      omega

theorem sequence?_compactMembers {value : Scan Json} {ms : List (String × Json)}
    (hvalue : ∀ m ∈ ms, ∀ rest, endsNumeral rest →
      value (m.2.compact ++ rest) = some (m.2, rest)) (rest : Bytes) :
    sequence? 0x7d (fun _ => member? fun _ => value) (compactMembers ms ++ 0x7d :: rest) =
      some (ms, rest) := by
  let written (m : String × Json) : WrittenField Json := ⟨m.1, m.2, m.2⟩
  cases ms with
  | nil => rfl
  | cons m ms =>
      have hread : ∀ f ∈ written m :: ms.map written, f.ReadBy fun _ => value := by
        intro f hf rest hrest
        obtain ⟨n, hn, rfl⟩ := List.mem_map.1 (List.map_cons ▸ hf : f ∈ (m :: ms).map written)
        exact hvalue n hn rest hrest
      have hsequence := sequence?_fields (written m) (ms.map written) hread rest
      simpa [written, WrittenField.member, Function.comp_def] using hsequence

theorem value?_array {room : Nat} {xs : List Json} (hxs : itemsExact xs = true)
    (hitem : ∀ x ∈ xs, ∀ rest, endsNumeral rest →
      value? room (x.compact ++ rest) = some (x, rest)) (rest : Bytes) :
    value? (room + 1) ((array xs).compact ++ rest) = some (array xs, rest) := by
  have hsequence := sequence?_compactItems hxs hitem rest
  rw [compact, List.cons_append, List.append_assoc, value?]
  dsimp only
  rw [skipBlank_cons (b := 0x5b) rfl]
  change (sequence? 0x5d (fun _ => value? room) (compactItems xs ++ 0x5d :: rest)).map _ = _
  rw [hsequence]
  rfl

theorem value?_object {room : Nat} {ms : List (String × Json)}
    (hms : (ms.map (·.1)).Pairwise (· < ·))
    (hvalue : ∀ m ∈ ms, ∀ rest, endsNumeral rest →
      value? room (m.2.compact ++ rest) = some (m.2, rest)) (rest : Bytes) :
    value? (room + 1) ((object ms).compact ++ rest) = some (object ms, rest) := by
  have hsequence := sequence?_compactMembers hvalue rest
  rw [compact, List.cons_append, List.append_assoc, value?]
  dsimp only
  rw [skipBlank_cons (b := 0x7b) rfl]
  change (sequence? 0x7d (fun _ => member? fun _ => value? room)
    (compactMembers ms ++ 0x7d :: rest)).map _ = _
  rw [hsequence, Option.map_some, ofMembers_of_ascending hms]

theorem value?_scalar {j : Json} (hj : j.isExact = true) (hdepth : j.depth = 0) (room : Nat)
    (hrest : endsNumeral rest) : value? room (j.compact ++ rest) = some (j, rest) := by
  cases j with
  | null => exact value?_null room rest
  | bool b => exact value?_bool room b rest
  | int i => exact value?_int (of_decide_eq_true hj).1 (of_decide_eq_true hj).2 room hrest
  | double x => cases hj
  | string s => exact value?_quote room s rest
  | array items => cases hdepth
  | object members => cases hdepth

/-- An exact value is read back, if there is room for it. -/
theorem value?_compact {room : Nat} {j : Json} (hj : j.isExact = true) (hroom : j.depth ≤ room)
    (hrest : endsNumeral rest) : value? room (j.compact ++ rest) = some (j, rest) := by
  induction room generalizing j rest with
  | zero => exact value?_scalar hj (Nat.le_zero.1 hroom) 0 hrest
  | succ room ih =>
      cases j with
      | null | bool | int | double | string => exact value?_scalar hj rfl _ hrest
      | array items =>
          have hdepth := itemsDepth_le_iff.1 (Nat.le_of_succ_le_succ hroom)
          exact value?_array hj
            (fun x hx _ hrest => ih (itemsExact_iff.1 hj x hx) (hdepth x hx) hrest) rest
      | object members =>
          obtain ⟨hascending, hmembers⟩ := Bool.and_eq_true_iff.1 hj
          have hdepth := membersDepth_le_iff.1 (Nat.le_of_succ_le_succ hroom)
          exact value?_object (of_decide_eq_true hascending)
            (fun m hm _ hrest => ih (membersExact_iff.1 hmembers m hm) (hdepth m hm) hrest) rest

/-- A list of exact values is read back, if there is room for each. -/
theorem values?_compact {room : Nat} {xs : List Json}
    (hxs : ∀ x ∈ xs, x.isExact = true ∧ x.depth ≤ room) (rest : Bytes) :
    values? room ((array xs).compact ++ rest) = some (xs, rest) := by
  rw [compact, List.cons_append, List.append_assoc, values?, skipBlank_cons (b := 0x5b) rfl]
  exact sequence?_compactItems (itemsExact_iff.2 fun x hx => (hxs x hx).1)
    (fun x hx _ hrest => value?_compact (hxs x hx).1 (hxs x hx).2 hrest) rest

end Conflux.Json

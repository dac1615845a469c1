import Conflux.Proofs.Json.ReadBack

/-!
Compact containers. All of a list is read back, if every item is, and all of a record, if the
value of every field is. Where fields follow that a reader may refuse, what it does read begins
with the texts that stand in front of them.
-/

namespace Conflux.Json

variable {α : Type} {value : String → Scan α} {i : Nat}

theorem endsNumeral_bracket (rest : Bytes) : endsNumeral (0x5d :: rest) := by
  simp [endsNumeral, isDigit]

theorem endsNumeral_brace (rest : Bytes) : endsNumeral (0x7d :: rest) := by
  simp [endsNumeral, isDigit]

/-! ### Lists -/

theorem compactMoreItems_cons (x : Json) (xs : List Json) :
    compactMoreItems (x :: xs) = 0x2c :: compactItems (x :: xs) := by
  rw [compactMoreItems, compactItems]

theorem length_le_compactMoreItems (xs : List Json) :
    xs.length ≤ (compactMoreItems xs).length := by
  induction xs with
  | nil => exact Nat.le_refl 0
  | cons x xs ih =>
      rw [compactMoreItems]
      simp only [List.length_cons, List.length_append]
      omega

theorem reads_compactItems {item : Scan Json} (x : Json) (xs : List Json)
    (hitem : ∀ y ∈ x :: xs, ∀ rest, endsNumeral rest → item (y.compact ++ rest) = some (y, rest))
    (rest : Bytes) :
    Reads 0x5d (fun _ => item) (xs.length + 1) i (compactItems (x :: xs) ++ 0x5d :: rest)
      (x :: xs) rest := by
  induction xs generalizing x i with
  | nil =>
      refine .last ?_ (skipBlank_cons (b := 0x5d) rfl rest)
      rw [compactItems, compactMoreItems, List.append_nil]
      exact hitem x List.mem_cons_self _ (endsNumeral_bracket rest)
  | cons y ys ih =>
      have hmore := ih y (i := i + 1) fun z hz => hitem z (List.mem_cons_of_mem x hz)
      refine .more (r := 0x2c :: (compactItems (y :: ys) ++ 0x5d :: rest)) ?_
        (skipBlank_cons (b := 0x2c) rfl _) (by decide) hmore
      rw [compactItems, compactMoreItems_cons, List.append_assoc]
      exact hitem x List.mem_cons_self _ (endsNumeral_comma _)

/-! ### Fields -/

/-- A field that is written, and what its value is read as. -/
structure WrittenField (α : Type) where
  name : String
  written : Json
  meaning : α

namespace WrittenField

def member (f : WrittenField α) : String × Json := (f.name, f.written)

/-- The value is read back, whatever comes behind it. -/
def ReadBy (f : WrittenField α) (value : String → Scan α) : Prop :=
  ∀ rest, endsNumeral rest →
    value f.name (f.written.compact ++ rest) = some (f.meaning, rest)

end WrittenField

/-- A field that is written as a text, and what the text is read as. -/
structure TextField (α : Type) where
  name : String
  text : String
  meaning : α

def TextField.member (f : TextField α) : String × Json := (f.name, .string f.text)

/-- Behind its name a value is left to its reader. -/
theorem member?_quote (value : String → Scan α) (name : String) (s : Bytes) :
    member? value (quote name ++ 0x3a :: s) =
      (value name s).map fun p => ((name, p.1), p.2) := by
  rw [member?, string?_of_quote (skipBlank_quote name _)]
  simp only [Option.bind_eq_bind, Option.bind_some, skipBlank_cons (b := 0x3a) rfl]
  cases value name s <;> rfl

theorem compactMembers_cons (name : String) (x : Json) (ms : List (String × Json))
    (rest : Bytes) :
    compactMembers ((name, x) :: ms) ++ rest =
      quote name ++ 0x3a :: (x.compact ++ (compactMoreMembers ms ++ rest)) := by
  simp [compactMembers]

theorem compactMoreMembers_cons (m : String × Json) (ms : List (String × Json)) :
    compactMoreMembers (m :: ms) = 0x2c :: compactMembers (m :: ms) := by
  rw [compactMoreMembers, compactMembers]

theorem length_le_compactMoreMembers (ms : List (String × Json)) :
    ms.length ≤ (compactMoreMembers ms).length := by
  induction ms with
  | nil => exact Nat.le_refl 0
  | cons m ms ih =>
      rw [compactMoreMembers]
      simp only [List.length_cons, List.length_append]
      omega

/-! ### All of a record -/

theorem reads_fields (f : WrittenField α) (fs : List (WrittenField α))
    (hvalue : ∀ g ∈ f :: fs, g.ReadBy value) (rest : Bytes) :
    Reads 0x7d (fun _ => member? value) (fs.length + 1) i
      (compactMembers ((f :: fs).map (·.member)) ++ 0x7d :: rest)
      ((f :: fs).map fun g => (g.name, g.meaning)) rest := by
  induction fs generalizing f i with
  | nil =>
      refine .last ?_ (skipBlank_cons (b := 0x7d) rfl rest)
      rw [List.map_singleton, WrittenField.member, compactMembers_cons, member?_quote,
        compactMoreMembers, List.nil_append,
        hvalue f List.mem_cons_self _ (endsNumeral_brace rest)]
      rfl
  | cons g fs ih =>
      have hmore := ih g (i := i + 1) fun k hk => hvalue k (List.mem_cons_of_mem f hk)
      refine .more (r := 0x2c :: (compactMembers ((g :: fs).map (·.member)) ++ 0x7d :: rest))
        ?_ (skipBlank_cons (b := 0x2c) rfl _) (by decide) hmore
      rw [List.map_cons, WrittenField.member, compactMembers_cons, member?_quote, List.map_cons,
        compactMoreMembers_cons, List.cons_append,
        hvalue f List.mem_cons_self _ (endsNumeral_comma _)]
      rfl

theorem sequence?_fields (f : WrittenField α) (fs : List (WrittenField α))
    (hvalue : ∀ g ∈ f :: fs, g.ReadBy value) (rest : Bytes) :
    sequence? 0x7d (fun _ => member? value)
        (compactMembers ((f :: fs).map (·.member)) ++ 0x7d :: rest) =
      some ((f :: fs).map fun g => (g.name, g.meaning), rest) := by
  have hreads := reads_fields (i := 0) f fs hvalue rest
  have hlength := length_le_compactMoreMembers (fs.map (·.member))
  rw [List.map_cons, WrittenField.member, compactMembers_cons, quote_append] at hreads ⊢
  refine hreads.sequence? (skipBlank_cons (b := 0x22) rfl _) (by decide) ?_
  rw [List.length_map] at hlength
  simp only [List.length_cons, List.length_append]
  omega

variable {names : List String} {field : String → Scan α}

def recordValue (names : List String) (field : String → Scan α) (name : String) :
    Scan (Option α) := fun s =>
  if name ∈ names then (field name s).map fun p => (some p.1, p.2)
  else (skipValue? s).map fun p => (none, p.2)

theorem record?_object (names : List String) (field : String → Scan α)
    (ms : List (String × Json)) (rest : Bytes) :
    record? names field ((object ms).compact ++ rest) =
      (sequence? 0x7d (fun _ => member? (recordValue names field))
        (compactMembers ms ++ 0x7d :: rest)).map fun p =>
          (p.1.filterMap fun m => m.2.map fun x => (m.1, x), p.2) := by
  rw [compact, List.cons_append, List.append_assoc, record?, skipBlank_cons (b := 0x7b) rfl]
  rfl

/-- A record is read back, if the value of every field is. -/
theorem record?_fields (fs : List (WrittenField α)) (hne : fs ≠ [])
    (hnames : ∀ f ∈ fs, f.name ∈ names) (hfield : ∀ f ∈ fs, f.ReadBy field) (rest : Bytes) :
    record? names field ((object (fs.map (·.member))).compact ++ rest) =
      some (fs.map fun f => (f.name, f.meaning), rest) := by
  let known (f : WrittenField α) : WrittenField (Option α) := ⟨f.name, f.written, some f.meaning⟩
  have hvalue : ∀ g ∈ fs.map known, g.ReadBy (recordValue names field) := by
    intro g hg rest hrest
    obtain ⟨f, hf, rfl⟩ := List.mem_map.1 hg
    rw [recordValue, if_pos (hnames f hf), hfield f hf rest hrest]
    rfl
  have hmembers : (fs.map known).map (·.member) = fs.map (·.member) := by
    simp [known, WrittenField.member]
  rw [record?_object, ← hmembers]
  cases fs with
  | nil => exact absurd rfl hne
  | cons f fs =>
      rw [List.map_cons, sequence?_fields (known f) (fs.map known) hvalue rest]
      simp [known, List.filterMap_map, Function.comp_def]

/-- A record of texts is read back. -/
theorem record?_texts {texts : List (TextField α)} (hne : texts ≠ [])
    (hnames : ∀ f ∈ texts, f.name ∈ names)
    (hfield : ∀ f ∈ texts, ∀ rest, field f.name (quote f.text ++ rest) = some (f.meaning, rest))
    (rest : Bytes) :
    record? names field ((object (texts.map (·.member))).compact ++ rest) =
      some (texts.map fun f => (f.name, f.meaning), rest) := by
  let written (f : TextField α) : WrittenField α := ⟨f.name, .string f.text, f.meaning⟩
  have hread : ∀ g ∈ texts.map written, g.ReadBy field := by
    intro g hg rest _
    obtain ⟨f, hf, rfl⟩ := List.mem_map.1 hg
    exact hfield f hf rest
  have hrecord := record?_fields (texts.map written) (by simpa using hne)
    (by simpa [written] using hnames) hread rest
  simpa [written, WrittenField.member, TextField.member, Function.comp_def] using hrecord

/-! ### The front of a record -/

/-- What is read of a record that begins with a text, and goes on, begins with that text. -/
theorem itemsFrom?_text {name t : String} {g : String → Option α} (hname : name ∈ names)
    (hfield : ∀ rest, field name (quote t ++ rest) = (g t).map fun x => (x, rest))
    {m : String × Json} {ms : List (String × Json)} {fuel rest r : Bytes}
    {ys : List (String × Option α)}
    (h : itemsFrom? 0x7d (fun _ => member? (recordValue names field)) fuel i
      (compactMembers ((name, .string t) :: m :: ms) ++ rest) = some (ys, r)) :
    ∃ x zs fuel, g t = some x ∧ ys = (name, some x) :: zs ∧
      itemsFrom? 0x7d (fun _ => member? (recordValue names field)) fuel (i + 1)
        (compactMembers (m :: ms) ++ rest) = some (zs, r) := by
  have hvalue : recordValue names field name (quote t ++ (compactMoreMembers (m :: ms) ++ rest)) =
      (g t).map fun x => (some x, compactMoreMembers (m :: ms) ++ rest) := by
    rw [recordValue, if_pos hname, hfield, Option.map_map]
    rfl
  cases fuel with
  | nil => cases h
  | cons b fuel =>
      rw [itemsFrom?, compactMembers_cons, compact, member?_quote, hvalue] at h
      cases hg : g t with
      | none =>
          rw [hg] at h
          cases h
      | some x =>
          rw [hg, compactMoreMembers_cons, List.cons_append] at h
          simp only [Option.map_some, Option.bind_eq_bind, Option.bind_some,
            skipBlank_cons (b := 0x2c) rfl, if_neg (show ¬ (0x2c : UInt8) = 0x7d by decide),
            if_true] at h
          obtain ⟨⟨zs, r'⟩, hzs, hsome⟩ := Option.bind_eq_some_iff.1 h
          cases hsome
          exact ⟨x, zs, fuel, rfl, rfl, hzs⟩

section

variable (texts : List (String × String)) (meaning? : String → String → Option α)
  (hnames : ∀ f ∈ texts, f.1 ∈ names)
  (hfield : ∀ f ∈ texts, ∀ rest, field f.1 (quote f.2 ++ rest) =
    (meaning? f.1 f.2).map fun x => (x, rest))
  {m : String × Json} {ms : List (String × Json)} {rest r : Bytes}

include hnames hfield

theorem itemsFrom?_front {fuel : Bytes} {ys : List (String × Option α)}
    (h : itemsFrom? 0x7d (fun _ => member? (recordValue names field)) fuel i
      (compactMembers (texts.map (fun f => (f.1, .string f.2)) ++ m :: ms) ++ rest) =
        some (ys, r)) :
    ∃ known more, texts.mapM (fun f => (meaning? f.1 f.2).map (f.1, ·)) = some known ∧
      ys = known.map (fun k => (k.1, some k.2)) ++ more := by
  induction texts generalizing fuel i ys with
  | nil => exact ⟨[], ys, rfl, rfl⟩
  | cons f fs ih =>
      obtain ⟨n, ns, hns⟩ : ∃ n ns,
          fs.map (fun f => (f.1, Json.string f.2)) ++ m :: ms = n :: ns :=
        List.exists_cons_of_ne_nil (List.append_ne_nil_of_right_ne_nil _ (List.cons_ne_nil m ms))
      rw [List.map_cons, List.cons_append, hns] at h
      obtain ⟨x, zs, fuel, hx, rfl, hzs⟩ :=
        itemsFrom?_text (hnames f List.mem_cons_self) (hfield f List.mem_cons_self) h
      rw [← hns] at hzs
      obtain ⟨known, more, hknown, rfl⟩ := ih
        (fun g hg => hnames g (List.mem_cons_of_mem f hg))
        (fun g hg => hfield g (List.mem_cons_of_mem f hg)) hzs
      refine ⟨(f.1, x) :: known, more, ?_, rfl⟩
      simp only [List.mapM_cons, hx, hknown, Option.map_some, Option.bind_eq_bind,
        Option.bind_some]
      rfl

/-- What is read of a record that begins with texts, and has more behind them, begins with what
these are read as. -/
theorem record?_front (hne : texts ≠ []) {fields : List (String × α)}
    (h : record? names field
      ((object (texts.map (fun f => (f.1, .string f.2)) ++ m :: ms)).compact ++ rest) =
        some (fields, r)) :
    ∃ known more, texts.mapM (fun f => (meaning? f.1 f.2).map (f.1, ·)) = some known ∧
      fields = known ++ more := by
  rw [record?_object] at h
  obtain ⟨⟨ys, r'⟩, hsequence, hfields⟩ := Option.map_eq_some_iff.1 h
  cases hfields
  obtain ⟨known, more, hknown, rfl⟩ : ∃ known more,
      texts.mapM (fun f => (meaning? f.1 f.2).map (f.1, ·)) = some known ∧
        ys = known.map (fun k => (k.1, some k.2)) ++ more := by
    cases texts with
    | nil => exact absurd rfl hne
    | cons f fs =>
        rw [List.map_cons, List.cons_append, compactMembers_cons, quote_append, sequence?,
          skipBlank_cons (b := 0x22) rfl] at hsequence
        simp only [if_neg (show ¬ (0x22 : UInt8) = 0x7d by decide)] at hsequence
        rw [← quote_append, ← compactMembers_cons, ← List.cons_append] at hsequence
        exact itemsFrom?_front (f :: fs) meaning? hnames hfield hsequence
  refine ⟨known, more.filterMap fun k => k.2.map fun x => (k.1, x), hknown, ?_⟩
  rw [List.filterMap_append, List.filterMap_map]
  exact congrArg (· ++ _) List.filterMap_some

end

end Conflux.Json

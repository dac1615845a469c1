import Conflux.Proofs.Json.Compact
import Conflux.Proofs.Traversal

/-!
Readers that make more of what other readers read. A refined reader takes the same bytes and then
asks whether what it has read means something. A record, or a row of any items, is refined by
refining its items on the way or by refining the whole of it afterwards: what is left of the
input is the same, and as there is one failure only, it does not matter which one came first.
-/

namespace Conflux.Json

variable {α β γ : Type} {f : α → Option β} {scan : Scan α} {names : List String}
  {field : String → Scan α}

def refined (f : α → Option β) (scan : Scan α) : Scan β := fun s =>
  (scan s).bind fun p => (f p.1).map fun y => (y, p.2)

theorem refined_refined (f : α → Option β) (g : β → Option γ) (scan : Scan α) :
    refined g (refined f scan) = refined (fun x => (f x).bind g) scan := by
  funext s
  rw [refined, refined, refined]
  cases scan s with
  | none => rfl
  | some p =>
      rw [Option.bind_some, Option.bind_some]
      cases f p.1 <;> rfl

/-- Only what the reader does read has to be refined alike. -/
theorem refined_congr {g : α → Option β} (h : ∀ s x r, scan s = some (x, r) → f x = g x) :
    refined f scan = refined g scan := by
  funext s
  rw [refined, refined]
  cases hs : scan s with
  | none => rfl
  | some p => rw [Option.bind_some, Option.bind_some, h s p.1 p.2 hs]

theorem whole?_refined (f : α → Option β) (scan : Scan α) (s : Bytes) :
    whole? (refined f scan) s = (whole? scan s).bind f := by
  rw [whole?, whole?, refined]
  cases scan s with
  | none => rfl
  | some p =>
      rw [Option.bind_some]
      cases hf : f p.1 with
      | none =>
          by_cases hrest : skipBlank p.2 = []
          · simp [hrest, hf]
          · simp [hrest]
      | some y =>
          by_cases hrest : skipBlank p.2 = []
          · simp [hrest, hf]
          · simp [hrest]

/-! ### Rows -/

theorem itemsFrom?_refined (close : UInt8) (item : Nat → Scan α) (f : α → Option β) (fuel : Bytes)
    (i : Nat) :
    itemsFrom? close (fun i => refined f (item i)) fuel i =
      refined (List.mapM f) (itemsFrom? close item fuel i) := by
  induction fuel generalizing i with
  | nil => rfl
  | cons b fuel ih =>
      funext s
      rw [itemsFrom?, ih]
      conv => rhs; rw [refined, itemsFrom?]
      simp only [refined]
      cases item i s with
      | none => rfl
      | some p =>
          obtain ⟨x, r⟩ := p
          simp only [Option.bind_eq_bind, Option.bind_some]
          -- An item that means nothing fails here on one side, and with the whole row on the other.
          cases hblank : skipBlank r with
          | nil => cases f x <;> simp [hblank]
          | cons c r =>
              by_cases hclose : c = close
              · cases hf : f x <;> simp [hblank, hclose, hf]
              · by_cases hcomma : c = 0x2c
                · subst hcomma
                  cases hrest : itemsFrom? close item fuel (i + 1) r with
                  | none => cases f x <;> simp [hblank, hclose, hrest]
                  | some q =>
                      cases hf : f x with
                      | none => simp [hclose, hf, hrest]
                      | some y =>
                          cases hq : q.1.mapM f <;> simp [hblank, hclose, hf, hq, hrest]
                · cases f x <;> simp [hblank, hclose, hcomma]

theorem sequence?_refined (close : UInt8) (item : Nat → Scan α) (f : α → Option β) :
    sequence? close (fun i => refined f (item i)) =
      refined (List.mapM f) (sequence? close item) := by
  funext s
  rw [sequence?, refined, sequence?]
  cases skipBlank s with
  | nil => rfl
  | cons b r =>
      dsimp only
      by_cases hclose : b = close
      · simp [hclose]
      · rw [if_neg hclose, if_neg hclose, itemsFrom?_refined]
        rfl

/-! ### Records -/

def onValue (f : String → α → Option β) (m : String × α) : Option (String × β) :=
  (f m.1 m.2).map fun y => (m.1, y)

theorem member?_refined (value : String → Scan α) (f : String → α → Option β) :
    member? (fun k => refined (f k) (value k)) = refined (onValue f) (member? value) := by
  funext s
  rw [member?, refined, member?]
  cases string? s with
  | none => rfl
  | some p =>
      obtain ⟨k, r⟩ := p
      simp only [Option.bind_eq_bind, Option.bind_some]
      cases skipBlank r with
      | nil => rfl
      | cons b r =>
          by_cases hcolon : b = 0x3a
          · subst hcolon
            simp only [refined]
            cases value k r with
            | none => rfl
            | some q => cases hf : f k q.1 <;> simp [onValue, hf]
          · split <;> simp_all

theorem recordValue_refined (names : List String) (field : String → Scan α)
    (f : String → α → Option β) :
    recordValue names (fun k => refined (f k) (field k)) =
      fun k => refined (Option.mapM (f k)) (recordValue names field k) := by
  funext k s
  by_cases hk : k ∈ names
  · simp only [recordValue, refined, if_pos hk]
    cases field k s with
    | none => rfl
    | some p => cases hf : f k p.1 <;> simp [hf]
  · simp only [recordValue, refined, if_neg hk]
    cases skipValue? s <;> rfl

/-- What is passed over has nothing to be refined. -/
theorem mapM_filterMap (f : String → α → Option β) (ms : List (String × Option α)) :
    (ms.filterMap fun m => m.2.map fun x => (m.1, x)).mapM (onValue f) =
      (ms.mapM (onValue fun k => Option.mapM (f k))).map
        (List.filterMap fun m => m.2.map fun y => (m.1, y)) := by
  induction ms with
  | nil => rfl
  | cons m ms ih =>
      obtain ⟨k, value⟩ := m
      cases value with
      | none =>
          rw [List.filterMap_cons_none rfl, ih, List.mapM_cons]
          cases ms.mapM (onValue fun k => Option.mapM (f k)) <;> simp [onValue]
      | some x =>
          have hkept : (((k, some x) :: ms).filterMap fun m => m.2.map fun x => (m.1, x)) =
              (k, x) :: ms.filterMap fun m => m.2.map fun x => (m.1, x) := rfl
          rw [hkept, List.mapM_cons, ih, List.mapM_cons]
          cases hf : f k x with
          | none => simp [onValue, hf]
          | some y =>
              cases ms.mapM (onValue fun k => Option.mapM (f k)) <;> simp [onValue, hf]

def recordItem (names : List String) (field : String → Scan α) (i : Nat) : Scan (String × α) :=
  fun s =>
    match names[i]? with
    | some k => (field k s).map fun p => ((k, p.1), p.2)
    | none => none

theorem recordItem_refined (names : List String) (field : String → Scan α)
    (f : String → α → Option β) :
    recordItem names (fun k => refined (f k) (field k)) =
      fun i => refined (onValue f) (recordItem names field i) := by
  funext i s
  simp only [recordItem, refined]
  cases names[i]? with
  | none => rfl
  | some k =>
      dsimp only
      cases field k s with
      | none => rfl
      | some p => cases hf : f k p.1 <;> simp [onValue, hf]

/-- A record is refined by refining its fields. -/
theorem record?_refined (names : List String) (field : String → Scan α)
    (f : String → α → Option β) :
    record? names (fun k => refined (f k) (field k)) =
      refined (List.mapM (onValue f)) (record? names field) := by
  funext s
  rw [refined, record?, record?]
  cases skipBlank s with
  | nil => rfl
  | cons b r =>
      by_cases hbrace : b = 0x7b
      · subst hbrace
        change (sequence? 0x7d (fun _ => member? (recordValue names _)) r).map _ =
          ((sequence? 0x7d (fun _ => member? (recordValue names field)) r).map _).bind _
        rw [recordValue_refined, member?_refined, sequence?_refined, refined]
        cases sequence? 0x7d (fun _ => member? (recordValue names field)) r with
        | none => rfl
        | some p =>
            simp only [Option.map_some, Option.bind_some, mapM_filterMap]
            cases p.1.mapM (onValue fun k => Option.mapM (f k)) <;> rfl
      · by_cases hbracket : b = 0x5b
        · subst hbracket
          change sequence? 0x5d (recordItem names _) r =
            (sequence? 0x5d (recordItem names field) r).bind _
          rw [recordItem_refined, sequence?_refined]
          rfl
        · split <;> simp_all

open Classical in
/-- What the reader of a field never reads is never in a record. -/
theorem of_mem_record? (P : String → α → Prop)
    (hP : ∀ k s x r, field k s = some (x, r) → P k x) {s r : Bytes} {fields : List (String × α)}
    (h : record? names field s = some (fields, r)) :
    ∀ m ∈ fields, P m.1 m.2 := by
  -- To ask of a field what holds of it anyway refines nothing.
  let ask (k : String) (x : α) : Option α := if P k x then some x else none
  have hask : (fun k => refined (ask k) (field k)) = field := by
    funext k s
    rw [refined]
    cases hs : field k s with
    | none => rfl
    | some p => simp [ask, hP k s p.1 p.2 hs]
  have hrefined := record?_refined names field ask
  rw [hask] at hrefined
  have hall : (fields.mapM (onValue ask)).isSome := by
    have hs := congrFun hrefined s
    rw [refined, h, Option.bind_some] at hs
    cases hm : fields.mapM (onValue ask) with
    | none => simp [hm] at hs
    | some ys => rfl
  intro m hm
  have hkept := isSome_mapM_iff.1 hall m hm
  by_contra hnot
  simp [onValue, ask, hnot] at hkept

end Conflux.Json

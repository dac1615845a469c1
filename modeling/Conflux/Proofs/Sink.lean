import Conflux.Sink
import Conflux.Proofs.Files
import Mathlib.Data.List.Induction

/-!
What the sink keeps. A bundle is written into the file at its place, and whatever comes of that,
no other place is touched: what is written on the way has an extension that no place has, and the
directories on the way are no places. So the file at a place has the last bundle that went there.

The place is made of the names of the source and of the type, but not of all that is in them: what
is not plain in a name is made a low line, so names that differ only there have one place. The
bundles of two such sources go into one file, and the sink keeps the last of both. It keeps the
last bundle of a source and a type if no other source or type has its place, and that is so if all
names are plain.
-/

namespace Conflux.Sink

open Files (Path Tree)

/-! ### Names -/

theorem safeName_ne_empty (s : String) : safeName s ≠ "" := by
  rw [safeName]
  split
  · simp
  · next h =>
      rw [not_or] at h
      exact h.1

/-- Nothing in the name has to be replaced, and it is not one of the names of directories. -/
structure IsPlain (s : String) : Prop where
  signs : s.toList.all plain = true
  proper : s ≠ "" ∧ s ≠ "." ∧ s ≠ ".."

theorem IsPlain.safeName_eq {s : String} (h : IsPlain s) : safeName s = s := by
  have hcleaned : String.ofList (s.toList.map fun c => if plain c then c else '_') = s := by
    rw [List.map_congr_left fun c hc => if_pos (List.all_eq_true.1 h.signs c hc), List.map_id',
      String.ofList_toList]
  rw [safeName, hcleaned]
  exact if_neg (by simp [h.proper])

theorem place_eq_iff {source bundleType other otherType : String} :
    place source bundleType = place other otherType ↔
      safeName source = safeName other ∧ safeName bundleType = safeName otherType := by
  simp [place, String.append_left_inj]

/-- Plain names are told apart. -/
theorem place_inj_of_plain {source bundleType other otherType : String} (hsource : IsPlain source)
    (htype : IsPlain bundleType) (hother : IsPlain other) (hotherType : IsPlain otherType)
    (h : place source bundleType = place other otherType) :
    source = other ∧ bundleType = otherType := by
  rw [place_eq_iff, hsource.safeName_eq, htype.safeName_eq, hother.safeName_eq,
    hotherType.safeName_eq] at h
  exact h

/-! ### Places -/

theorem temporary_place (root : Path) (source bundleType : String) :
    Tree.temporary (root ++ place source bundleType) =
      root ++ [safeName source, safeName bundleType ++ "." ++ "tmp"] := by
  have hname : safeName bundleType ++ ".json" = safeName bundleType ++ "." ++ "json" := by
    rw [String.append_assoc]
    rfl
  have hpath := Path.withExtension_concat (root ++ [safeName source])
    (safeName_ne_empty bundleType) (show "json" ≠ "" by decide) (by decide) "tmp"
  rw [← hname] at hpath
  simpa [place, Tree.temporary] using hpath

/-- What is written on the way to a place is at no place. -/
theorem temporary_place_ne (root : Path) (source bundleType other otherType : String) :
    Tree.temporary (root ++ place source bundleType) ≠ root ++ place other otherType := by
  rw [temporary_place]
  intro h
  have hnames := (List.cons_eq_cons.1 (List.append_cancel_left h)).2
  -- The one name ends with `p`, the other with `n`.
  have hlast := congrArg (fun names : Path => (names.flatMap String.toList).getLast?) hnames
  simp at hlast

theorem place_not_mem_ancestors (root : Path) (source bundleType other otherType : String) :
    root ++ place other otherType ∉ (root ++ place source bundleType).ancestors := by
  intro h
  have hlength := (Tree.length_of_mem_ancestors h).2
  simp [place] at hlength

/-! ### What is handled -/

namespace Stored

def place (s : Stored) : Path := Sink.place s.bundle.source s.bundle.bundleType

def isOf (s : Stored) (source bundleType : String) : Bool :=
  decide (s.bundle.source = source ∧ s.bundle.bundleType = bundleType)

end Stored

variable {root : Path} {t : Tree} {source bundleType : String}

/-- The sink is given a bundle. Something from outside may break it off. -/
abbrev Call := Stored × Option Tree.Fault

/-- One call more: the tree after it, and the bundles for which a call has succeeded. -/
def handle (root : Path) (state : Tree × List Stored) (c : Call) : Tree × List Stored :=
  match store state.1 root c.1 c.2 with
  | (t, .ok ()) => (t, state.2 ++ [c.1])
  | (t, .error _) => (t, state.2)

def run (root : Path) (t : Tree) (calls : List Call) : Tree × List Stored :=
  calls.foldl (handle root) (t, [])

theorem run_concat (root : Path) (t : Tree) (calls : List Call) (c : Call) :
    run root t (calls ++ [c]) = handle root (run root t calls) c := by
  rw [run, List.foldl_append]
  rfl

def lastAt (p : Path) (done : List Stored) : Option Stored :=
  (done.filter fun s => decide (s.place = p)).getLast?

theorem lastAt_concat (p : Path) (done : List Stored) (s : Stored) :
    lastAt p (done ++ [s]) = if s.place = p then some s else lastAt p done := by
  rw [lastAt, List.filter_append]
  by_cases h : s.place = p <;> simp [lastAt, h]

/-- What the files at the places are like after some calls that began with the tree `before`. -/
structure Keeps (root : Path) (before : Tree) (state : Tree × List Stored) : Prop where
  latest : ∀ source bundleType s, lastAt (place source bundleType) state.2 = some s →
    state.1.read? (root ++ place source bundleType) = .ok s.encode
  untouched : ∀ source bundleType, lastAt (place source bundleType) state.2 = none →
    Tree.Spares (root ++ place source bundleType) before state.1

/-- A bundle that goes elsewhere leaves a place alone, whether it is handled or not. -/
theorem spares_store {t' : Tree} {s : Stored} {fault : Option Tree.Fault}
    {result : Except Files.WriteError Unit} (hstore : store t root s fault = (t', result))
    (h : s.place ≠ place source bundleType) :
    Tree.Spares (root ++ place source bundleType) t t' := by
  have hspares : Tree.Spares (root ++ place source bundleType) t (store t root s fault).1 :=
    .replaceWith_of_ne (temporary_place_ne _ _ _ _ _) (temporary_place_ne _ _ _ _ _)
      (place_not_mem_ancestors _ _ _ _ _) (fun heq => h (List.append_cancel_left heq)) t fault
  rwa [hstore] at hspares

/-- A call that fails leaves every place alone. -/
theorem spares_store_error {t' : Tree} {s : Stored} {fault : Option Tree.Fault}
    {e : Files.WriteError} (hstore : store t root s fault = (t', .error e))
    (source bundleType : String) : Tree.Spares (root ++ place source bundleType) t t' := by
  by_cases hplace : s.place = place source bundleType
  · rw [← hplace]
    exact .replaceWith (temporary_place_ne _ _ _ _ _) hstore
  · exact spares_store hstore hplace

theorem Keeps.handle {before : Tree} {state : Tree × List Stored} (h : Keeps root before state)
    (c : Call) : Keeps root before (handle root state c) := by
  rw [Sink.handle]
  split
  · next t hdone =>
      refine ⟨fun source bundleType s hs => ?_, fun source bundleType hnone => ?_⟩
      · rw [lastAt_concat] at hs
        split at hs
        · next hplace =>
            obtain rfl := Option.some.inj hs
            rw [← hplace]
            exact Tree.read?_replaceWith (temporary_place_ne _ _ _ _ _) hdone
        · next hplace => exact (spares_store hdone hplace).read? (h.latest source bundleType s hs)
      · rw [lastAt_concat] at hnone
        split at hnone
        · cases hnone
        · next hplace =>
            exact (h.untouched source bundleType hnone).trans (spares_store hdone hplace)
  · next t e hfailed =>
      have hspares := spares_store_error hfailed
      refine ⟨fun source bundleType s hs => ?_, fun source bundleType hnone => ?_⟩
      · exact (hspares source bundleType).read? (h.latest source bundleType s hs)
      · exact (h.untouched source bundleType hnone).trans (hspares source bundleType)

theorem keeps_start (root : Path) (t : Tree) : Keeps root t (t, []) where
  latest _ _ _ hs := nomatch hs
  untouched _ _ _ := .refl _ t

theorem keeps_run (root : Path) (t : Tree) (calls : List Call) :
    Keeps root t (run root t calls) := by
  induction calls using List.reverseRecOn with
  | nil => exact keeps_start root t
  | append_singleton calls c ih =>
      rw [run_concat]
      exact ih.handle c

/-! ### One file for every source and type -/

/-- No other source or type that was handled has the place of this one. -/
def Apart (done : List Stored) (source bundleType : String) : Prop :=
  ∀ s ∈ done, s.place = place source bundleType → s.isOf source bundleType = true

theorem apart_of_plain {done : List Stored} (hsource : IsPlain source) (htype : IsPlain bundleType)
    (hdone : ∀ s ∈ done, IsPlain s.bundle.source ∧ IsPlain s.bundle.bundleType) :
    Apart done source bundleType := by
  intro s hs hplace
  obtain ⟨hother, hotherType⟩ := hdone s hs
  exact decide_eq_true (place_inj_of_plain hother hotherType hsource htype hplace)

theorem Apart.lastAt_eq {done : List Stored} (h : Apart done source bundleType) :
    lastAt (place source bundleType) done =
      (done.filter fun s => s.isOf source bundleType).getLast? := by
  rw [lastAt]
  congr 1
  refine List.filter_congr fun s hs => ?_
  rw [Bool.eq_iff_iff, decide_eq_true_eq]
  refine ⟨h s hs, fun hof => ?_⟩
  obtain ⟨rfl, rfl⟩ := of_decide_eq_true hof
  rfl

/-- The sink keeps the last bundle of a source and a type if no other source or type that it has
handled has the same place, whatever else it was given and whatever went wrong with that. If it has
handled none of them, it leaves alone what there was. -/
theorem keeps_latest (root : Path) (t : Tree) (calls : List Call) (source bundleType : String)
    (hapart : Apart (run root t calls).2 source bundleType) :
    let after := (run root t calls).1
    let own := (run root t calls).2.filter fun s => s.isOf source bundleType
    let path := root ++ place source bundleType
    (∀ s, own.getLast? = some s → after.read? path = .ok s.encode) ∧
      (own = [] → ∀ b, t.read? path = .ok b → after.read? path = .ok b) := by
  intro after own path
  have hkeeps := keeps_run root t calls
  refine ⟨fun s hs => ?_, fun hnone b hb => ?_⟩
  · refine hkeeps.latest source bundleType s ?_
    rw [hapart.lastAt_eq, hs]
  · refine (hkeeps.untouched source bundleType ?_).read? hb
    rw [hapart.lastAt_eq]
    exact List.getLast?_eq_none_iff.2 hnone

def sample (source : String) (value : UInt64) : Stored where
  version := ⟨0, value⟩
  dependencyVersion := none
  position := ⟨"status", 0, value⟩
  bundle := .fresh source "Policies" ⟨0, value⟩ [] ⟨0, 0, 0⟩

/-- The third call breaks off before the rename. -/
theorem keeps_latest_broken_off :
    let calls : List Call := [(sample "hub1" 1, none), (sample "hub2" 2, none),
      (sample "hub1" 3, some ⟨5, 0⟩)]
    (run ["sink"] .empty calls).2 = [sample "hub1" 1, sample "hub2" 2] ∧
      (run ["sink"] .empty calls).1.read? ["sink", "hub1", "Policies.json"] =
        .ok (sample "hub1" 1).encode := by
  intro calls
  have hdone : (run ["sink"] .empty calls).2 = [sample "hub1" 1, sample "hub2" 2] := by rfl
  have hplain : IsPlain "hub1" ∧ IsPlain "hub2" ∧ IsPlain "Policies" := by
    refine ⟨⟨?_, ?_⟩, ⟨?_, ?_⟩, ⟨?_, ?_⟩⟩ <;> decide +kernel
  have hapart : Apart (run ["sink"] .empty calls).2 "hub1" "Policies" := by
    refine apart_of_plain hplain.1 hplain.2.2 fun s hs => ?_
    rw [hdone, List.mem_cons, List.mem_singleton] at hs
    rcases hs with rfl | rfl
    · exact ⟨hplain.1, hplain.2.2⟩
    · exact hplain.2
  have hkept := (keeps_latest ["sink"] .empty calls "hub1" "Policies" hapart).1 (sample "hub1" 1) ?_
  · exact ⟨hdone, hkept⟩
  · rw [hdone]
    rfl

def confused : List Call := [(sample "a_b" 1, none), (sample "a b" 2, none)]

/-- Two sources have one place. Both bundles are handled, and the first is gone. -/
theorem confuses_sources :
    (run ["sink"] .empty confused).2 = [sample "a_b" 1, sample "a b" 2] ∧
      (run ["sink"] .empty confused).1.read? (["sink"] ++ place "a_b" "Policies") =
        .ok (sample "a b" 2).encode ∧
      (sample "a b" 2).encode ≠ (sample "a_b" 1).encode := by
  refine ⟨by rfl, ?_, ?_⟩
  · decide +kernel
  · decide +kernel

end Conflux.Sink

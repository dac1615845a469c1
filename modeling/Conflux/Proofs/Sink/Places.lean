import Conflux.Proofs.Files.Text
import Conflux.Proofs.Sink

/-!
Where the sink writes. The names of sources and types come from outside and may be any text at all:
they may have slashes in them, be written in any script, be empty, or be the names by which a
directory knows itself and the one above it. Whatever they are, two names are made of them that
lead from the root into a directory and to a file there, and to no other place.

What a bundle is first written to stands beside its file and has another extension, so it is no
place of any bundle.
-/

namespace Conflux.Sink

open Files (Path Tree)

/-- The letters and digits of ASCII, and three signs. -/
def IsSign (c : Char) : Prop :=
  'A' ≤ c ∧ c ≤ 'Z' ∨ 'a' ≤ c ∧ c ≤ 'z' ∨ '0' ≤ c ∧ c ≤ '9' ∨ c = '-' ∨ c = '_' ∨ c = '.'

theorem plain_iff {c : Char} : plain c = true ↔ IsSign c := by
  have hrange (low high : Char) :
      (decide (c.val ≥ low.val) && decide (c.val ≤ high.val)) = true ↔ low ≤ c ∧ c ≤ high := by
    rw [Bool.and_eq_true, decide_eq_true_eq, decide_eq_true_eq]
    exact Iff.rfl
  have hupper : c.isUpper = true ↔ 'A' ≤ c ∧ c ≤ 'Z' := decide_eq_true_iff
  have hlower : c.isLower = true ↔ 'a' ≤ c ∧ c ≤ 'z' := hrange 'a' 'z'
  have hdigit : c.isDigit = true ↔ '0' ≤ c ∧ c ≤ '9' := hrange '0' '9'
  change (c.isUpper || c.isLower || c.isDigit || c == '-' || c == '_' || c == '.') = true ↔ _
  simp only [Bool.or_eq_true, beq_iff_eq, hupper, hlower, hdigit, or_assoc]
  exact Iff.rfl

/-! ### Names -/

/-- A name with what is not plain in it replaced. -/
theorem all_plain_map (cs : List Char) :
    (cs.map fun c => if plain c then c else '_').all plain = true := by
  rw [List.all_map, List.all_eq_true]
  intro c _
  rw [Function.comp_apply]
  split
  · next hc => exact hc
  · decide

/-- What comes out is plain, whatever went in. -/
theorem isPlain_safeName (s : String) : IsPlain (safeName s) := by
  have hplain := all_plain_map s.toList
  rw [← String.toList_ofList (l := s.toList.map _)] at hplain
  rw [safeName]
  generalize String.ofList (s.toList.map _) = cleaned at hplain ⊢
  split
  · refine ⟨?_, ?_⟩
    · rw [String.toList_append, List.all_append, hplain]
      decide
    · -- The names of directories have no low line at the front, and the empty name has none.
      refine ⟨?_, ?_, ?_⟩ <;>
        intro h <;>
        simpa using congrArg (·.toList.head?) h
  · next h =>
      rw [not_or, not_or] at h
      exact ⟨hplain, h⟩

theorem IsPlain.append {s t : String} (hs : IsPlain s) (ht : t.toList.all plain = true)
    (hlength : 3 ≤ t.toList.length) : IsPlain (s ++ t) := by
  have hlong : ∀ u : String, u.toList.length ≤ 2 → s ++ t ≠ u := by
    rintro _ hu rfl
    rw [String.toList_append, List.length_append] at hu
    omega
  refine ⟨?_, hlong "" (by decide), hlong "." (by decide), hlong ".." (by decide)⟩
  rw [String.toList_append, List.all_append, hs.signs, ht]
  rfl

/-- A plain name is one name for a path as well. -/
theorem IsPlain.isName {s : String} (h : IsPlain s) : Path.IsName s := by
  refine ⟨⟨h.proper.1, h.proper.2.1⟩, fun hslash => ?_⟩
  have hplain := List.all_eq_true.1 h.signs '/' hslash
  exact absurd hplain (by decide)

/-- Both the file of a bundle and what is written for it at first have such names. -/
theorem isPlain_of_mem {source bundleType extension name : String}
    (hplain : extension.toList.all plain = true) (hlength : 3 ≤ extension.toList.length)
    (h : name ∈ [safeName source, safeName bundleType ++ extension]) : IsPlain name := by
  rw [List.mem_cons, List.mem_singleton] at h
  rcases h with rfl | rfl
  · exact isPlain_safeName source
  · exact (isPlain_safeName bundleType).append hplain hlength

theorem isPlain_of_mem_place (source bundleType : String) :
    ∀ name ∈ place source bundleType, IsPlain name := by
  intro name hname
  exact isPlain_of_mem (by decide) (by decide) hname

theorem isPlain_of_mem_temporary (source bundleType : String) :
    ∀ name ∈ Tree.temporary (place source bundleType), IsPlain name := by
  intro name hname
  have htemporary := temporary_place [] source bundleType
  rw [List.nil_append, List.nil_append, String.append_assoc] at htemporary
  rw [htemporary] at hname
  exact isPlain_of_mem (by decide) (by decide) hname

/-! ### Places -/

/-- The place of a bundle is two plain names below the root, and as text it stands for what the
root stands for and these two names. What is written for it at first is in the same directory and
is at no place of any source and type, nor would it be as text. -/
theorem stays_below_root (root : Path) (base source bundleType : String) :
    let path := root ++ place source bundleType
    let written (p : Path) := Path.named (Path.text base p)
    (place source bundleType).length = 2 ∧
      (∀ name ∈ place source bundleType,
        name ≠ "" ∧ name ≠ "." ∧ name ≠ ".." ∧ ∀ c ∈ name.toList, IsSign c) ∧
      written (place source bundleType) = Path.named base ++ place source bundleType ∧
      Path.absolute (Path.text base (place source bundleType)) = Path.absolute base ∧
      (Tree.temporary path).parent = path.parent ∧
      (∀ other otherType, Tree.temporary path ≠ root ++ place other otherType) ∧
      ∀ other otherType, written (Tree.temporary (place source bundleType)) ≠
        written (place other otherType) := by
  intro path written
  have hwritten {p : Path} (hp : ∀ name ∈ p, IsPlain name) := Path.named_text
    (fun name hname => (hp name hname).isName) base
  obtain ⟨hnamed, habsolute⟩ := hwritten (isPlain_of_mem_place source bundleType)
  refine ⟨rfl, fun name hname => ?_, hnamed, habsolute, ?_, ?_, fun other otherType => ?_⟩
  · have hplain := isPlain_of_mem_place source bundleType name hname
    obtain ⟨hempty, hpoint, hpoints⟩ := hplain.proper
    exact ⟨hempty, hpoint, hpoints, fun c hc =>
      plain_iff.1 (List.all_eq_true.1 hplain.signs c hc)⟩
  · rw [temporary_place]
    simp [path, place, Path.parent, List.dropLast_append_of_ne_nil]
  · exact temporary_place_ne root source bundleType
  · have hother : written (place other otherType) = _ :=
      (hwritten (isPlain_of_mem_place other otherType)).1
    have htemporary : written (Tree.temporary (place source bundleType)) = _ :=
      (hwritten (isPlain_of_mem_temporary source bundleType)).1
    rw [hother, htemporary]
    intro heq
    exact temporary_place_ne [] source bundleType other otherType (List.append_cancel_left heq)

end Conflux.Sink

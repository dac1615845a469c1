import Conflux.Files.Path
import Mathlib.Data.List.Basic

/-!
Paths as they are written. A slash ends a name, two slashes in a row say no more than one, and a
single point names the directory one is in already. A name that is written behind a path is one
name more only if there is no slash in it; with one at its front it would even be another path
altogether.
-/

namespace Conflux.Files.Path

/-- The names on the way that a written path stands for. -/
def named (s : String) : Path :=
  ((s.toList.splitOnP (· == '/')).map String.ofList).filter fun name => name ≠ "" ∧ name ≠ "."

/-- It begins at the root of all files, and not where one is. -/
def absolute (s : String) : Bool := s.toList.head? == some '/'

structure IsName (s : String) : Prop where
  proper : s ≠ "" ∧ s ≠ "."
  whole : '/' ∉ s.toList

theorem named_append_slash (s t : String) : named (s ++ "/" ++ t) = named s ++ named t := by
  have hlist : (s ++ "/" ++ t).toList = s.toList ++ '/' :: t.toList := by simp
  have hsplit : (s.toList ++ '/' :: t.toList).splitOnP (· == '/') =
      s.toList.splitOnP (· == '/') ++ t.toList.splitOnP (· == '/') :=
    List.splitOnP_append_cons _ _ (beq_self_eq_true _)
  rw [named, hlist, hsplit, List.map_append, List.filter_append]
  rfl

theorem named_empty : named "" = [] := by
  rw [named, String.toList_empty, List.splitOnP_nil]
  rfl

variable {part : String}

theorem IsName.named_eq (h : IsName part) : named part = [part] := by
  have hwhole : ∀ c ∈ part.toList, (c == '/') = false := by
    intro c hc
    rw [beq_eq_false_iff_ne]
    rintro rfl
    exact h.whole hc
  rw [named, List.splitOnP_eq_singleton hwhole, List.map_singleton, String.ofList_toList,
    List.filter_cons_of_pos (by simpa using h.proper), List.filter_nil]

theorem IsName.not_absolute (h : IsName part) : part.toList.head? ≠ some '/' := fun hslash =>
  h.whole (List.mem_of_head? hslash)

/-- How a name is written behind a path: a slash stands between them, unless there is one
already or nothing before it. -/
theorem join_cases (h : IsName part) (base : String) :
    base = "" ∧ join base part = part ∨
      (∃ front, base = front ++ "/" ∧ join base part = front ++ "/" ++ part) ∨
        base ≠ "" ∧ join base part = base ++ "/" ++ part := by
  rw [join]
  split
  · next hslash => exact absurd hslash h.not_absolute
  · next hnone _ =>
      rw [List.getLast?_eq_none_iff, String.toList_eq_nil_iff] at hnone
      exact .inl ⟨hnone, rfl⟩
  · next hslash _ =>
      obtain ⟨front, hfront⟩ := List.getLast?_eq_some_iff.1 hslash
      have hbase : base = String.ofList front ++ "/" := by
        rw [← String.toList_inj, hfront]
        simp
      exact .inr (.inl ⟨String.ofList front, hbase, by rw [hbase]⟩)
  · next _ hlast _ =>
      refine .inr (.inr ⟨?_, rfl⟩)
      rintro rfl
      cases hlast

/-- A name behind a path is one name more. -/
theorem named_join (h : IsName part) (base : String) :
    named (join base part) = named base ++ [part] := by
  rcases join_cases h base with ⟨rfl, hjoin⟩ | ⟨front, rfl, hjoin⟩ | ⟨-, hjoin⟩
  · rw [hjoin, h.named_eq, named_empty, List.nil_append]
  · have hfront := named_append_slash front ""
    rw [String.append_empty, named_empty, List.append_nil] at hfront
    rw [hjoin, named_append_slash, h.named_eq, hfront]
  · rw [hjoin, named_append_slash, h.named_eq]

theorem absolute_join (h : IsName part) (base : String) :
    absolute (join base part) = absolute base := by
  have hfront {s : String} (hs : s ≠ "") (t : String) : absolute (s ++ t) = absolute s := by
    rw [Ne, ← String.toList_eq_nil_iff] at hs
    rw [absolute, String.toList_append, List.head?_append_of_ne_nil _ hs, absolute]
  rcases join_cases h base with ⟨rfl, hjoin⟩ | ⟨front, rfl, hjoin⟩ | ⟨hne, hjoin⟩
  · rw [hjoin, absolute, beq_eq_false_iff_ne.2 h.not_absolute]
    rfl
  · rw [hjoin, hfront (by simp)]
  · rw [hjoin, String.append_assoc, hfront hne]

/-- A path that is written behind a directory leads to what is below it, and to nothing else. -/
theorem named_text {p : Path} (h : ∀ name ∈ p, IsName name) (base : String) :
    named (text base p) = named base ++ p ∧ absolute (text base p) = absolute base := by
  rw [text]
  induction p generalizing base with
  | nil => exact ⟨(List.append_nil _).symm, rfl⟩
  | cons name p ih =>
      have hname := h name List.mem_cons_self
      obtain ⟨hnamed, habsolute⟩ := ih (fun n hn => h n (List.mem_cons_of_mem name hn))
        (join base name)
      rw [List.foldl_cons, hnamed, habsolute, named_join hname, absolute_join hname,
        List.append_assoc]
      exact ⟨rfl, rfl⟩

end Conflux.Files.Path

import Conflux.Proofs.Files
import Mathlib.Data.List.Induction

/-!
A replacement happens or it does not. Wherever it fails or is broken off, who reads the file reads
what he would have read before; and when it is through he reads the new content, and what was
written at first is gone.

Two things can spoil this. One is the name of the file: the temporary file has the same name with
another extension, and if that is the extension it has already, the file itself is emptied and
written, and a replacement that is broken off leaves it empty or half written. The other is the
tree: the directories that are made on the way do not bring the file about only because nothing can
stand where no directory is. In a tree that was made by these operations everything stands in a
directory, so this is no condition on the file.
-/

namespace Conflux.Files

/-! ### Extensions -/

namespace Path

/-- What stands behind the last point of a name. A point at the start begins no extension. -/
def extension? (name : String) : Option String :=
  if name = ".." then none
  else
    match lastPoint? name.toList with
    | none => none
    | some 0 => none
    | some n => some (String.ofList (name.toList.drop (n + 1)))

theorem eq_append_of_lastPoint? {cs : List Char} {n : Nat} (h : lastPoint? cs = some n) :
    cs = cs.take n ++ '.' :: cs.drop (n + 1) := by
  induction cs generalizing n with
  | nil => cases h
  | cons c cs ih =>
      rw [lastPoint?] at h
      split at h
      · next m hm =>
          obtain rfl := Option.some.inj h
          rw [List.take_succ_cons, List.drop_succ_cons, List.cons_append, ← ih hm]
      · split at h
        · next hc =>
            obtain rfl := Option.some.inj h
            rw [hc]
            rfl
        · cases h

/-- A name stays as it is if it has this extension already, and only then. -/
theorem retype_eq_self_iff {name : String} (hname : name ≠ "..") (extension : String) :
    retype name extension = name ↔ extension? name = some extension := by
  have hlonger : name ++ "." ++ extension ≠ name := by
    intro h
    have hlength := congrArg (·.toList.length) h
    simp at hlength
  rw [retype, stem, extension?, if_neg hname, if_neg hname]
  cases hpoint : lastPoint? name.toList with
  | none => exact iff_of_false hlonger (Option.some_ne_none _).symm
  | some n =>
      cases n with
      | zero => exact iff_of_false hlonger (Option.some_ne_none _).symm
      | succ n =>
          change String.ofList (name.toList.take (n + 1)) ++ "." ++ extension = name ↔
            some (String.ofList (name.toList.drop (n + 2))) = some extension
          have hsplit := eq_append_of_lastPoint? hpoint
          have hlist : (String.ofList (name.toList.take (n + 1)) ++ "." ++ extension).toList =
              name.toList.take (n + 1) ++ '.' :: extension.toList := by simp
          constructor
          · intro h
            have hsame := hlist.symm.trans ((congrArg String.toList h).trans hsplit)
            have htail := (List.cons_eq_cons.1 (List.append_cancel_left hsame)).2
            rw [← htail, String.ofList_toList]
          · intro h
            obtain rfl := Option.some.inj h
            rw [← String.toList_inj, hlist, String.toList_ofList, ← hsplit]

end Path

namespace Tree

variable {t t' u : Tree} {p q path dir : Path} {name : String} {data : Bytes} {n : Node}

theorem temporary_concat (dir : Path) (hname : name ≠ "..") :
    temporary (dir ++ [name]) = dir ++ [Path.retype name "tmp"] := by
  rw [temporary, Path.withExtension, List.getLast?_concat]
  simp [hname, Path.parent]

theorem temporary_concat_ne (dir : Path) (hname : name ≠ "..")
    (hextension : Path.extension? name ≠ some "tmp") :
    temporary (dir ++ [name]) ≠ dir ++ [name] := by
  rw [temporary_concat dir hname]
  intro h
  have hsame := List.singleton_inj.1 (List.append_cancel_left h)
  exact hextension ((Path.retype_eq_self_iff hname "tmp").1 hsame)

/-! ### Trees -/

/-- Everything stands in a directory, under a name that is not too long. -/
def Grounded (t : Tree) : Prop :=
  ∀ p name n, t.node? (p ++ [name]) = some n → t.node? p = some .directory ∧ fits name = true

theorem grounded_empty : empty.Grounded := by
  intro p name n h
  simp [node?, empty] at h

theorem node?_remove_self (hp : p ≠ []) : (t.remove p).node? p = none := by
  simp [node?, remove, hp]

/-- What stands in no directory is not there. -/
theorem Grounded.node?_append (h : t.Grounded) (hp : t.node? p = none) (rest : Path) :
    t.node? (p ++ rest) = none := by
  induction rest using List.reverseRecOn with
  | nil => rwa [List.append_nil]
  | append_singleton rest name ih =>
      rw [← List.append_assoc]
      cases hnode : t.node? (p ++ rest ++ [name]) with
      | none => rfl
      | some n => cases ih.symm.trans (h _ _ _ hnode).1

theorem Grounded.reachable (h : t.Grounded) (hp : t.node? p = some n) : t.reachable p = true := by
  rcases List.eq_nil_or_concat p with rfl | ⟨dir, name, rfl⟩
  · rfl
  · rw [List.concat_eq_append] at hp ⊢
    obtain ⟨hdir, hfits⟩ := h _ _ _ hp
    exact (reachable_concat t dir name).2 ⟨hfits, hdir⟩

/-- What is put where it can be looked up stands as everything does, if it takes the place of no
directory. -/
theorem Grounded.put (h : t.Grounded) (hreachable : t.reachable p = true)
    (hp : t.node? p ≠ some .directory) (n : Node) : (t.put p n).Grounded := by
  intro q name m hm
  have hstands : t.node? q = some .directory ∧ fits name = true := by
    by_cases hpq : p = q ++ [name]
    · rw [hpq] at hreachable
      exact ((reachable_concat t q name).1 hreachable).symm
    · rw [node?_put_of_ne hpq] at hm
      exact h q name m hm
  exact ⟨node?_put_of_directory hp hstands.1 n, hstands.2⟩

theorem Grounded.remove (h : t.Grounded) (hp : t.node? p ≠ some .directory) :
    (t.remove p).Grounded := by
  intro q name m hm
  have hpq : p ≠ q ++ [name] := by
    rintro rfl
    rw [node?_remove_self (by simp)] at hm
    cases hm
  rw [node?_remove_of_ne hpq] at hm
  obtain ⟨hdir, hfits⟩ := h _ _ _ hm
  have hne : p ≠ q := by
    rintro rfl
    exact hp hdir
  rw [node?_remove_of_ne hne]
  exact ⟨hdir, hfits⟩

/-- Every step leaves a tree in which everything stands as it should. -/
theorem Grounded.step (h : t.Grounded) {s : Step} (hrun : s.run? t = some t') : t'.Grounded := by
  cases done_of_run? hrun with
  | standing | synced | kept => exact h
  | made hreachable hp => exact h.put hreachable (by simp [hp]) _
  | created hreachable hp => exact h.put hreachable hp _
  | appended hp => exact h.put (h.reachable hp) (by simp [hp]) _
  | renamed hp hpq hreachable hq =>
      refine (h.put hreachable hq _).remove ?_
      rw [node?_put_of_ne hpq.symm]
      simp [hp]

theorem Grounded.replaceWith (h : t.Grounded) (path : Path) (data : Bytes)
    (fault : Option Fault) : (t.replaceWith path data fault).1.Grounded :=
  replaceWith_induction (R := fun t t' => t.Grounded → t'.Grounded) (fun _ h => h)
    (fun h h' hgrounded => h' (h hgrounded)) (fun _ _ _ _ hrun h => h.step hrun)
    (fun _ _ hrun h => h.step hrun) t fault h

/-! ### The way to a file -/

/-- What can have changed for someone who goes to `path`: where nothing was on the way there is a
directory. -/
structure Opens (path : Path) (t t' : Tree) : Prop where
  node : t'.node? path = t.node? path
  way : ∀ q name rest, path = q ++ name :: rest →
    t'.node? q = t.node? q ∨ t.node? q = none ∧ t'.node? q = some .directory

theorem Opens.refl (path : Path) (t : Tree) : Opens path t t := ⟨rfl, fun _ _ _ _ => .inl rfl⟩

theorem Opens.trans (h : Opens path t t') (h' : Opens path t' u) : Opens path t u := by
  refine ⟨h'.node.trans h.node, fun q name rest hpath => ?_⟩
  rcases h'.way q name rest hpath with hsame | ⟨hnone, hdirectory⟩
  · rw [hsame]
    exact h.way q name rest hpath
  · rcases h.way q name rest hpath with hsame' | ⟨_, hdirectory'⟩
    · exact .inr ⟨hsame' ▸ hnone, hdirectory⟩
    · cases hnone.symm.trans hdirectory'

/-- What is written elsewhere is not on the way. -/
theorem Opens.put (hne : p ≠ path) (hway : ∀ name rest, path ≠ p ++ name :: rest) (n : Node) :
    Opens path t (t.put p n) := by
  refine ⟨node?_put_of_ne hne n, fun q name rest hpath => .inl (node?_put_of_ne ?_ n)⟩
  rintro rfl
  exact hway name rest hpath

theorem Opens.put_directory (hne : p ≠ path) (hnone : t.node? p = none) :
    Opens path t (t.put p .directory) := by
  refine ⟨node?_put_of_ne hne _, fun q name rest hpath => ?_⟩
  by_cases hpq : p = q
  · subst hpq
    refine .inr ⟨hnone, node?_put_self ?_ _⟩
    rintro rfl
    simp [node?] at hnone
  · exact .inl (node?_put_of_ne hpq _)

theorem length_temporary (path : Path) : (temporary path).length = path.length := by
  rcases List.eq_nil_or_concat path with rfl | ⟨dir, name, rfl⟩
  · rfl
  · rw [List.concat_eq_append, temporary, Path.withExtension, List.getLast?_concat]
    dsimp only
    split
    · rfl
    · rw [Path.parent, List.dropLast_concat, List.length_append, List.length_append]
      rfl

/-- Before the rename nothing on the way to a file changes but for the directories. -/
theorem Opens.step (htemporary : temporary path ≠ path) {s : Step} (hs : Prepares path s)
    (hrun : s.run? t = some t') : Opens path t t' := by
  have hway : ∀ name rest, path ≠ temporary path ++ name :: rest := by
    intro name rest hpath
    have hlength := congrArg List.length hpath
    rw [List.length_append, length_temporary, List.length_cons] at hlength
    omega
  cases hs with
  | makeDirectory hq =>
      cases done_of_run? hrun with
      | standing => exact .refl path t
      | made _ hp => exact .put_directory (fun heq => not_mem_ancestors_self (heq ▸ hq)) hp
  | create =>
      cases done_of_run? hrun with
      | created => exact .put htemporary hway _
  | append =>
      cases done_of_run? hrun with
      | appended => exact .put htemporary hway _
  | sync =>
      cases done_of_run? hrun with
      | synced => exact .refl path t

theorem walk_of_node?_eq_none {here : Path} (h : t.node? here = none) (rest : Path) :
    t.walk here rest = .error .notFound := by
  cases rest <;> rw [walk, h]

/-- Who goes to a file meets what he met before, or learns that a name is too long where he was
stopped by a missing directory before. -/
theorem Opens.walk (h : Opens path t t') (hgrounded : t.Grounded) (here rest : Path)
    (hpath : path = here ++ rest) :
    t'.walk here rest = t.walk here rest ∨
      t.walk here rest = .error .notFound ∧ t'.walk here rest = .error .noWay ∧
        ∃ name ∈ rest, fits name = false := by
  induction rest generalizing here with
  | nil =>
      rw [List.append_nil] at hpath
      rw [Tree.walk, Tree.walk, ← hpath, h.node]
      exact .inl rfl
  | cons name rest ih =>
      have hrest := ih (here ++ [name]) (by rw [hpath, List.append_assoc]; rfl)
      have hmem {P : String → Prop} (hex : ∃ other ∈ rest, P other) :
          ∃ other ∈ name :: rest, P other := by
        obtain ⟨other, hother, hp⟩ := hex
        exact ⟨other, List.mem_cons_of_mem name hother, hp⟩
      rcases h.way here name rest hpath with hsame | ⟨hnone, hdirectory⟩
      · rw [Tree.walk, Tree.walk, hsame]
        split
        · split
          · exact hrest.imp_right fun hlong => ⟨hlong.1, hlong.2.1, hmem hlong.2.2⟩
          · exact .inl rfl
        · exact .inl rfl
        · exact .inl rfl
      · -- Below a directory that was missing there was nothing.
        have hbelow := walk_of_node?_eq_none (hgrounded.node?_append hnone [name]) rest
        rw [hbelow] at hrest
        rw [walk_of_node?_eq_none hnone, Tree.walk, hdirectory]
        dsimp only
        cases hfits : fits name with
        | false => exact .inr ⟨rfl, rfl, name, List.mem_cons_self, hfits⟩
        | true =>
            exact hrest.imp_right fun hlong => ⟨rfl, hlong.2.1, hmem hlong.2.2⟩

/-! ### All or nothing -/

theorem Opens.read? (h : Opens path t t') (hgrounded : t.Grounded) :
    (∀ b, t'.read? path = .ok b ↔ t.read? path = .ok b) ∧
      ((∀ name ∈ path, fits name = true) → t'.read? path = t.read? path) := by
  rcases h.walk hgrounded [] path rfl with hsame | ⟨hbefore, hafter, name, hname, hlong⟩
  · rw [Tree.read?, hsame, Tree.read?]
    exact ⟨fun _ => Iff.rfl, fun _ => rfl⟩
  · rw [Tree.read?, hafter, Tree.read?, hbefore]
    refine ⟨fun b => ?_, fun hfits => ?_⟩
    · constructor
      · intro h
        cases h
      · intro h
        cases h
    · cases hlong.symm.trans (hfits name hname)

/-- What was written at first is gone when it has been given its name. -/
theorem node?_temporary_of_replace (htemporary : temporary path ≠ path)
    (h : t.replace path data = (t', .ok ())) : t'.node? (temporary path) = none := by
  rw [replace, replaceSteps_eq] at h
  obtain ⟨u, _, h⟩ := runSteps_append_eq_ok h
  obtain ⟨_, hrename, ⟨⟩⟩ := runSteps_cons_eq_ok h
  obtain ⟨content, hfile, _, _, rfl⟩ := rename_eq_some htemporary hrename
  exact node?_remove_self (ne_nil_of_node? (t := u) (by simp [hfile]))

/-- A replacement that is broken off at one of its steps fails. -/
theorem replaceUntil_ne_ok {fault : Fault} (h : fault.step < (replaceSteps path data).length) :
    (t.replaceUntil path data fault).2 ≠ .ok () := by
  rw [replaceUntil, List.getElem?_eq_getElem h]
  dsimp only
  split
  · intro hok
    cases hok
  · intro hok
    cases hok

/-- A replacement that fails, or is broken off at any of its steps and with any part of the content
written, leaves to be read what was to be read before, be it something or nothing; if no name on the
way is too long, even the answer to who reads nothing is the same. One that is through leaves the
new content and no temporary file. All this holds of any file but one whose extension is that of the
temporary file, on any path on which nothing goes back up; else a directory that is made might open
the way to a file that was there before. -/
theorem all_or_nothing (hgrounded : t.Grounded) (dir : Path) (hplain : ".." ∉ dir ++ [name])
    (hextension : Path.extension? name ≠ some "tmp") (data : Bytes) (fault : Option Fault) :
    let path := dir ++ [name]
    (∀ t' e, t.replaceWith path data fault = (t', .error e) →
      (∀ b, t'.read? path = .ok b ↔ t.read? path = .ok b) ∧
        ((∀ part ∈ path, fits part = true) → t'.read? path = t.read? path)) ∧
      (∀ t', t.replaceWith path data fault = (t', .ok ()) →
        t'.read? path = .ok data ∧ t'.node? (temporary path) = none) ∧
      ∀ broken, fault = some broken → broken.step < (replaceSteps path data).length →
        (t.replaceWith path data fault).2 ≠ .ok () := by
  intro path
  have hname : name ≠ ".." := by
    rintro rfl
    exact hplain List.mem_concat_self
  have htemporary : temporary path ≠ path := temporary_concat_ne dir hname hextension
  refine ⟨fun t' e h => ?_, fun t' h => ?_, ?_⟩
  · obtain ⟨ss, hss, rfl⟩ := replaceWith_eq_error h
    have hopens : Opens path t (t.runSteps ss).1 :=
      runSteps_induction (.refl path) .trans
        (fun s hs _ _ hrun => .step htemporary (hss s hs) hrun) t
    exact hopens.read? hgrounded
  · exact ⟨read?_replaceWith htemporary h,
      node?_temporary_of_replace htemporary (replaceWith_eq_ok h)⟩
  · rintro broken rfl hstep
    exact replaceUntil_ne_ok hstep

/-- A file that was replaced once is replaced again, and this is broken off when one byte of three
is written. -/
theorem all_or_nothing_half_written :
    let path := ["data", "offsets.json"]
    let before := (empty.replace path [1, 2]).1
    let after := before.replaceWith path [3, 4, 5] (some ⟨2, 1⟩)
    Path.extension? "offsets.json" ≠ some "tmp" ∧ after.2 = .error .writeData ∧
      after.1.read? ["data", "offsets.tmp"] = .ok [3] ∧ after.1.read? path = .ok [1, 2] := by
  intro path before after
  have hextension : Path.extension? "offsets.json" ≠ some "tmp" := by decide +kernel
  have hfails : after.2 = .error .writeData := by decide +kernel
  have hgrounded : before.Grounded := grounded_empty.replaceWith path [1, 2] none
  have hkept := (all_or_nothing hgrounded ["data"] (by decide) hextension [3, 4, 5]
    (some ⟨2, 1⟩)).1 after.1 .writeData (Prod.ext rfl hfails)
  refine ⟨hextension, hfails, by decide +kernel, (hkept.1 [1, 2]).2 ?_⟩
  decide +kernel

/-- A name of 256 bytes in a directory that is missing, and then is there. -/
example :
    let path := ["data", String.ofList (List.replicate 256 'x')]
    empty.read? path = .error .notFound ∧
      (empty.replace path [1]).1.read? path = .error .noWay := by
  decide +kernel

/-- A file that is its own temporary file is emptied first, so that nothing of it is left when the
replacement is broken off there; and when it goes through, the temporary file is still there. -/
theorem emptied_in_place :
    let path := ["data", "offsets.tmp"]
    let before := (empty.replace path [1, 2]).1
    let broken := before.replaceWith path [3, 4, 5] (some ⟨2, 0⟩)
    let through := before.replaceWith path [3, 4, 5] none
    before.read? path = .ok [1, 2] ∧
      (broken.2 = .error .writeData ∧ broken.1.read? path = .ok []) ∧
        through.2 = .ok () ∧ through.1.node? (temporary path) = some (.file [3, 4, 5]) := by
  decide +kernel

end Tree

end Conflux.Files

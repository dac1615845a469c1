import Conflux.Files.Replace

/-!
A file that is replaced is never seen in between. Up to the rename no step touches the
target, and no step at all takes a directory away, so a replacement that breaks off leaves
what can be read at the target as it was, and one that goes through leaves the new content.
Apart from the temporary file and the directories on the way, nothing else is touched at all.
-/

namespace Conflux.Files

/-! ### Names -/

namespace Path

theorem lastPoint?_eq_none {cs : List Char} (h : '.' ∉ cs) : lastPoint? cs = none := by
  induction cs with
  | nil => rfl
  | cons c cs ih =>
      rw [List.mem_cons, not_or] at h
      rw [lastPoint?, ih h.2]
      exact if_neg (Ne.symm h.1)

theorem lastPoint?_append {cs extension : List Char} (h : '.' ∉ extension) :
    lastPoint? (cs ++ '.' :: extension) = some cs.length := by
  induction cs with
  | nil =>
      rw [List.nil_append, lastPoint?, lastPoint?_eq_none h]
      rfl
  | cons c cs ih => rw [List.cons_append, lastPoint?, ih, List.length_cons]

/-- The last extension of a name gives way to another one. -/
theorem withExtension_concat (dir : Path) {name extension : String} (hname : name ≠ "")
    (hextension : extension ≠ "") (h : '.' ∉ extension.toList) (other : String) :
    withExtension (dir ++ [name ++ "." ++ extension]) other = dir ++ [name ++ "." ++ other] := by
  have hlist : (name ++ "." ++ extension).toList = name.toList ++ '.' :: extension.toList := by
    simp
  have hname' : 0 < name.toList.length := by
    rw [List.length_pos_iff, Ne, String.toList_eq_nil_iff]
    exact hname
  have hextension' : 0 < extension.toList.length := by
    rw [List.length_pos_iff, Ne, String.toList_eq_nil_iff]
    exact hextension
  have hne : name ++ "." ++ extension ≠ ".." := by
    intro heq
    have hlength := congrArg (·.toList.length) heq
    simp [hlist] at hlength
    omega
  have hstem : stem (name ++ "." ++ extension) = name := by
    rw [stem, if_neg hne, hlist, lastPoint?_append h]
    obtain ⟨n, hn⟩ := Nat.exists_eq_succ_of_ne_zero (Nat.ne_of_gt hname')
    rw [hn]
    change String.ofList (List.take (n + 1) _) = name
    rw [← Nat.succ_eq_add_one, ← hn, List.take_left, String.ofList_toList]
  rw [withExtension, List.getLast?_concat]
  simp [hne, parent, retype, hstem]

end Path

/-! ### Reading -/

/-- The directories on the way to a path are all there, and no name on it is too long. -/
def Tree.Way (t : Tree) (here p : Path) : Prop :=
  ∀ q name rest, p = q ++ name :: rest →
    t.node? (here ++ q) = some .directory ∧ Tree.fits name = true

namespace Tree

variable {t t' : Tree} {p q path : Path} {data b : Bytes}

@[simp] theorem way_nil (here : Path) : t.Way here [] := by
  intro q name rest h
  simp at h

theorem way_cons_iff {here : Path} {name : String} {p : Path} :
    t.Way here (name :: p) ↔ t.node? here = some .directory ∧ fits name = true ∧
      t.Way (here ++ [name]) p := by
  constructor
  · intro h
    have hhead := h [] name p rfl
    rw [List.append_nil] at hhead
    refine ⟨hhead.1, hhead.2, ?_⟩
    intro q other rest hp
    simpa using h (name :: q) other rest (by rw [hp, List.cons_append])
  · rintro ⟨hdir, hfits, hrest⟩ q other rest hp
    cases q with
    | nil =>
        obtain ⟨rfl, rfl⟩ := List.cons_eq_cons.1 hp
        simpa using ⟨hdir, hfits⟩
    | cons x q =>
        obtain ⟨rfl, htail⟩ := List.cons_eq_cons.1 hp
        simpa using hrest q other rest htail

theorem walk_eq_ok_iff {here : Path} :
    t.walk here p = .ok b ↔ t.Way here p ∧ t.node? (here ++ p) = some (.file b) := by
  induction p generalizing here with
  | nil =>
      rw [walk]
      split <;> simp_all
  | cons name p ih =>
      rw [walk, way_cons_iff]
      split
      · next hdir => by_cases hfits : fits name <;> simp [hdir, hfits, ih]
      · next hfile => simp [hfile]
      · next hnone => simp [hnone]

theorem read?_eq_ok_iff :
    t.read? p = .ok b ↔ t.Way [] p ∧ t.node? p = some (.file b) := by
  rw [read?, walk_eq_ok_iff, List.nil_append]

/-! ### Steps -/

theorem node?_put_self (hp : p ≠ []) (n : Node) : (t.put p n).node? p = some n := by
  simp [node?, put, hp]

theorem ne_nil_of_node? (h : t.node? p ≠ some .directory) : p ≠ [] := by
  rintro rfl
  exact h rfl

theorem node?_put_of_ne (h : p ≠ q) (n : Node) : (t.put p n).node? q = t.node? q := by
  simp [node?, put, Table.get?_put, h]

theorem node?_remove_of_ne (h : p ≠ q) : (t.remove p).node? q = t.node? q := by
  simp [node?, remove, Table.get?_erase, h]

/-- What a step does to the tree if it succeeds. -/
inductive Done (t : Tree) : Step → Tree → Prop where
  | standing {p : Path} (hreachable : t.reachable p = true)
      (hp : t.node? p = some .directory) : Done t (.makeDirectory p) t
  | made {p : Path} (hreachable : t.reachable p = true) (hp : t.node? p = none) :
      Done t (.makeDirectory p) (t.put p .directory)
  | created {p : Path} (hreachable : t.reachable p = true)
      (hp : t.node? p ≠ some .directory) : Done t (.create p) (t.put p (.file []))
  | appended {p : Path} {content : Bytes} (hp : t.node? p = some (.file content))
      (data : Bytes) : Done t (.append p data) (t.put p (.file (content ++ data)))
  | synced (p : Path) : Done t (.sync p) t
  | kept (p : Path) : Done t (.rename p p) t
  | renamed {p q : Path} {content : Bytes} (hp : t.node? p = some (.file content))
      (hpq : p ≠ q) (hreachable : t.reachable q = true) (hq : t.node? q ≠ some .directory) :
      Done t (.rename p q) ((t.put q (.file content)).remove p)

theorem done_of_run? {s : Step} (h : s.run? t = some t') : t.Done s t' := by
  cases s with
  | makeDirectory p =>
      rw [Step.run?, makeDirectory?] at h
      split at h
      · next hreachable =>
          split at h
          · next hdirectory =>
              obtain rfl := Option.some.inj h
              exact .standing hreachable hdirectory
          · cases h
          · next hnone =>
              obtain rfl := Option.some.inj h
              exact .made hreachable hnone
      · cases h
  | create p =>
      rw [Step.run?, create?] at h
      split at h
      · next hreachable =>
          split at h
          · cases h
          · next hp =>
              obtain rfl := Option.some.inj h
              exact .created hreachable hp
      · cases h
  | append p data =>
      rw [Step.run?, append?] at h
      split at h
      · next hfile =>
          obtain rfl := Option.some.inj h
          exact .appended hfile data
      · cases h
  | sync p =>
      obtain rfl := Option.some.inj h
      exact .synced p
  | rename p q =>
      rw [Step.run?, rename?] at h
      split at h
      · next hfile =>
          split at h
          · next hqp =>
              obtain rfl := Option.some.inj h
              rw [hqp]
              exact .kept p
          · next hqp =>
              split at h
              · next hreachable =>
                  split at h
                  · cases h
                  · next hq =>
                      obtain rfl := Option.some.inj h
                      exact .renamed hfile (Ne.symm hqp) hreachable hq
              · cases h
      · cases h

/-- What stays as it was when something else is written: what is at `path`, and every
directory. -/
structure Spares (path : Path) (t t' : Tree) : Prop where
  node : t'.node? path = t.node? path
  directory : ∀ q, t.node? q = some .directory → t'.node? q = some .directory

theorem Spares.refl (path : Path) (t : Tree) : Spares path t t := ⟨rfl, fun _ h => h⟩

theorem Spares.trans {u : Tree} (h : Spares path t t') (h' : Spares path t' u) :
    Spares path t u :=
  ⟨h'.node.trans h.node, fun q hq => h'.directory q (h.directory q hq)⟩

theorem Spares.way (h : Spares path t t') {here : Path} (hway : t.Way here p) :
    t'.Way here p := by
  intro q name rest hp
  exact ⟨h.directory _ (hway q name rest hp).1, (hway q name rest hp).2⟩

theorem Spares.read? (h : Spares path t t') (hread : t.read? path = .ok b) :
    t'.read? path = .ok b := by
  obtain ⟨hway, hfile⟩ := read?_eq_ok_iff.1 hread
  exact read?_eq_ok_iff.2 ⟨h.way hway, h.node.trans hfile⟩

/-- Writing where there is no directory takes none away. -/
theorem node?_put_of_directory (hp : t.node? p ≠ some .directory)
    (hq : t.node? q = some .directory) (n : Node) : (t.put p n).node? q = some .directory := by
  have hpq : p ≠ q := by
    rintro rfl
    exact hp hq
  rw [node?_put_of_ne hpq, hq]

theorem Spares.put (hne : p ≠ path) {n : Node} (hp : t.node? p ≠ some .directory) :
    Spares path t (t.put p n) :=
  ⟨node?_put_of_ne hne n, fun _ hq => node?_put_of_directory hp hq n⟩

end Tree

def Step.Avoids (path : Path) : Step → Prop
  | .makeDirectory p => p ≠ path
  | .create p => p ≠ path
  | .append p _ => p ≠ path
  | .sync _ => True
  | .rename _ _ => False

namespace Tree

variable {t t' : Tree} {path : Path}

theorem Spares.step {s : Step} (h : s.run? t = some t') (hs : s.Avoids path) :
    Spares path t t' := by
  cases done_of_run? h with
  | standing | synced => exact .refl path t
  | made _ hp => exact .put hs (by simp [hp])
  | created _ hp => exact .put hs hp
  | appended hp => exact .put hs (by simp [hp])
  | kept | renamed => exact hs.elim

/-- What no step breaks, a run of steps does not break either. -/
theorem runSteps_induction {R : Tree → Tree → Prop} (hrefl : ∀ t, R t t)
    (htrans : ∀ {t u v}, R t u → R u v → R t v) {ss : List Step}
    (hss : ∀ s ∈ ss, ∀ t t', s.run? t = some t' → R t t') (t : Tree) : R t (t.runSteps ss).1 := by
  induction ss generalizing t with
  | nil => exact hrefl t
  | cons s ss ih =>
      rw [Tree.runSteps]
      cases hrun : s.run? t with
      | none => exact hrefl t
      | some t' =>
          exact htrans (hss s List.mem_cons_self t t' hrun)
            (ih (fun r hr => hss r (List.mem_cons_of_mem s hr)) t')

theorem Spares.runSteps {ss : List Step}
    (hss : ∀ s ∈ ss, ∀ t t', s.run? t = some t' → Spares path t t') {t : Tree} :
    Spares path t (t.runSteps ss).1 :=
  runSteps_induction (.refl path) .trans hss t

theorem runSteps_append (t : Tree) (as bs : List Step) :
    t.runSteps (as ++ bs) =
      match t.runSteps as with
      | (t, .ok ()) => t.runSteps bs
      | (t, .error e) => (t, .error e) := by
  induction as generalizing t with
  | nil => rfl
  | cons s as ih =>
      rw [List.cons_append, runSteps, runSteps]
      cases s.run? t with
      | none => rfl
      | some t => exact ih t

theorem runSteps_cons_eq_ok {s : Step} {ss : List Step}
    (h : t.runSteps (s :: ss) = (t', .ok ())) :
    ∃ u, s.run? t = some u ∧ u.runSteps ss = (t', .ok ()) := by
  rw [runSteps] at h
  split at h
  · next u hrun => exact ⟨u, hrun, h⟩
  · cases h

theorem runSteps_append_eq_ok {as bs : List Step}
    (h : t.runSteps (as ++ bs) = (t', .ok ())) :
    ∃ u, t.runSteps as = (u, .ok ()) ∧ u.runSteps bs = (t', .ok ()) := by
  rw [runSteps_append] at h
  split at h
  · next u hrun => exact ⟨u, hrun, h⟩
  · cases h

/-! ### Replacing a file -/

theorem mem_ancestors {q : Path} {name : String} {rest : Path} (hq : q ≠ [])
    (hpath : path = q ++ name :: rest) : q ∈ path.ancestors := by
  have hlength : 0 < q.length := List.length_pos_iff.2 hq
  refine List.mem_map.2 ⟨q.length - 1, ?_, ?_⟩
  · rw [List.mem_range, hpath]
    simp
    omega
  · rw [hpath, show q.length - 1 + 1 = q.length by omega, List.take_left]

theorem length_of_mem_ancestors {q : Path} (h : q ∈ path.ancestors) :
    0 < q.length ∧ q.length < path.length := by
  obtain ⟨i, hi, rfl⟩ := List.mem_map.1 h
  rw [List.mem_range, List.length_dropLast] at hi
  rw [List.length_take]
  omega

/-- All of a replacement but the rename. -/
def preparation (path : Path) (data : Bytes) : List Step :=
  path.ancestors.map .makeDirectory ++
    [.create (temporary path), .append (temporary path) data, .sync (temporary path)]

theorem replaceSteps_eq (path : Path) (data : Bytes) :
    replaceSteps path data = preparation path data ++ [.rename (temporary path) path] := by
  simp [replaceSteps, preparation]

theorem not_mem_ancestors_self : path ∉ path.ancestors := by
  intro h
  exact absurd (length_of_mem_ancestors h).2 (Nat.lt_irrefl _)

section

variable {data : Bytes} {fault : Option Fault} {e : WriteError} {other : Path}

/-- A step before the rename, or as much of one as is done when it is broken off. -/
inductive Prepares (path : Path) : Step → Prop where
  | makeDirectory {q : Path} (h : q ∈ path.ancestors) : Prepares path (.makeDirectory q)
  | create : Prepares path (.create (temporary path))
  | append (data : Bytes) : Prepares path (.append (temporary path) data)
  | sync (q : Path) : Prepares path (.sync q)

theorem prepares_of_mem {s : Step} (hs : s ∈ preparation path data) : Prepares path s := by
  rcases List.mem_append.1 hs with hs | hs
  · obtain ⟨q, hq, rfl⟩ := List.mem_map.1 hs
    exact .makeDirectory hq
  · simp only [List.mem_cons, List.not_mem_nil, or_false] at hs
    rcases hs with rfl | rfl | rfl
    · exact .create
    · exact .append data
    · exact .sync _

/-- Only what is appended can be done in part. -/
theorem prepares_of_mem_part {failing s : Step} {written : Nat}
    (hfailing : failing ∈ replaceSteps path data) (hs : s ∈ failing.part written) :
    Prepares path s := by
  rw [replaceSteps_eq, List.mem_append, List.mem_singleton] at hfailing
  rcases hfailing with hfailing | rfl
  · cases prepares_of_mem hfailing with
    | append whole =>
        obtain rfl := List.mem_singleton.1 hs
        exact .append _
    | makeDirectory | create | sync => cases hs
  · cases hs

theorem Prepares.avoids {s : Step} (h : Prepares path s) (htemporary : temporary path ≠ other)
    (hancestors : other ∉ path.ancestors) : s.Avoids other := by
  cases h with
  | makeDirectory hq =>
      rintro rfl
      exact hancestors hq
  | create => exact htemporary
  | append => exact htemporary
  | sync => trivial

/-- What neither the preparation nor the rename breaks, a replacement does not break, however it
ends. -/
theorem replaceWith_induction {R : Tree → Tree → Prop} (hrefl : ∀ t, R t t)
    (htrans : ∀ {t u v}, R t u → R u v → R t v)
    (hprepares : ∀ s, Prepares path s → ∀ t t', s.run? t = some t' → R t t')
    (hrename : ∀ t t', (Step.rename (temporary path) path).run? t = some t' → R t t')
    (t : Tree) (fault : Option Fault) : R t (t.replaceWith path data fault).1 := by
  have hstep : ∀ s ∈ replaceSteps path data, ∀ t t', s.run? t = some t' → R t t' := by
    intro s hs
    rw [replaceSteps_eq] at hs
    rcases List.mem_append.1 hs with hs | hs
    · exact hprepares s (prepares_of_mem hs)
    · obtain rfl := List.mem_singleton.1 hs
      exact hrename
  have hwhole : R t (t.replace path data).1 := runSteps_induction hrefl htrans hstep t
  cases fault with
  | none => exact hwhole
  | some fault =>
      rw [Tree.replaceWith, Tree.replaceUntil]
      split
      · exact hwhole
      · next failing hfailing =>
          have hbroken : R t (t.runSteps ((replaceSteps path data).take fault.step ++
              failing.part fault.written)).1 := by
            refine runSteps_induction hrefl htrans (fun s hs => ?_) t
            rcases List.mem_append.1 hs with hs | hs
            · exact hstep s (List.mem_of_mem_take hs)
            · exact hprepares s (prepares_of_mem_part (List.mem_of_getElem? hfailing) hs)
          split <;> simpa only [*] using hbroken

/-- A replacement that fails has not come to the rename, or that has not happened. -/
theorem replace_eq_error {t t' : Tree} (h : t.replace path data = (t', .error e)) :
    ∃ ss, (∀ s ∈ ss, Prepares path s) ∧ t' = (t.runSteps ss).1 := by
  refine ⟨preparation path data, fun s hs => prepares_of_mem hs, ?_⟩
  rw [Tree.replace, replaceSteps_eq, runSteps_append] at h
  split at h
  · next u hrun =>
      rw [Tree.runSteps] at h
      split at h
      · cases h
      · cases h
        rw [hrun]
  · next u e' hrun =>
      cases h
      rw [hrun]

theorem replaceWith_eq_error {t t' : Tree}
    (h : t.replaceWith path data fault = (t', .error e)) :
    ∃ ss, (∀ s ∈ ss, Prepares path s) ∧ t' = (t.runSteps ss).1 := by
  cases fault with
  | none => exact replace_eq_error h
  | some fault =>
      rw [Tree.replaceWith, Tree.replaceUntil] at h
      split at h
      · exact replace_eq_error h
      · next failing hfailing =>
          have hstep : fault.step ≤ (preparation path data).length := by
            have := (List.getElem?_eq_some_iff.1 hfailing).1
            rw [replaceSteps_eq, List.length_append, List.length_singleton] at this
            omega
          refine ⟨(replaceSteps path data).take fault.step ++ failing.part fault.written, ?_, ?_⟩
          · intro s hs
            rcases List.mem_append.1 hs with hs | hs
            · rw [replaceSteps_eq, List.take_append_of_le_length hstep] at hs
              exact prepares_of_mem (List.mem_of_mem_take hs)
            · exact prepares_of_mem_part (List.mem_of_getElem? hfailing) hs
          · split at h
            all_goals
              next hrun =>
                cases h
                rw [hrun]

/-- A replacement that fails has not touched the file. -/
theorem Spares.replaceWith (htemporary : temporary path ≠ path) {t t' : Tree}
    (h : t.replaceWith path data fault = (t', .error e)) : Spares path t t' := by
  obtain ⟨ss, hss, rfl⟩ := replaceWith_eq_error h
  exact .runSteps fun s hs _ _ hrun =>
    .step hrun ((hss s hs).avoids htemporary not_mem_ancestors_self)

end

theorem reachable_concat (t : Tree) (q : Path) (name : String) :
    t.reachable (q ++ [name]) = true ↔ fits name = true ∧ t.node? q = some .directory := by
  simp [reachable, Path.parent]

theorem node?_of_makeDirectory {t t' : Tree} {p : Path}
    (h : (Step.makeDirectory p).run? t = some t') :
    t.reachable p = true ∧ t'.node? p = some .directory := by
  cases done_of_run? h with
  | standing hreachable hp => exact ⟨hreachable, hp⟩
  | made hreachable hp =>
      exact ⟨hreachable, node?_put_self (ne_nil_of_node? (t := t) (by simp [hp])) _⟩

theorem runSteps_makeDirectory {ps : List Path} (hps : ∀ p ∈ ps, p ≠ path) {t t' : Tree}
    (h : t.runSteps (ps.map .makeDirectory) = (t', .ok ())) {q : Path} {name : String}
    (hq : q ++ [name] ∈ ps) :
    fits name = true ∧ t'.node? (q ++ [name]) = some .directory := by
  induction ps generalizing t with
  | nil => cases hq
  | cons p ps ih =>
      obtain ⟨u, hrun, hrest⟩ := runSteps_cons_eq_ok h
      rcases List.mem_cons.1 hq with rfl | hq
      · obtain ⟨hreachable, hdir⟩ := node?_of_makeDirectory hrun
        have hspares : Spares path u (u.runSteps (ps.map .makeDirectory)).1 := by
          refine .runSteps fun s hs _ _ hrun => .step hrun ?_
          obtain ⟨p, hp, rfl⟩ := List.mem_map.1 hs
          exact hps p (List.mem_cons_of_mem _ hp)
        rw [hrest] at hspares
        exact ⟨((reachable_concat t q name).1 hreachable).1, hspares.directory _ hdir⟩
      · exact ih (fun r hr => hps r (List.mem_cons_of_mem p hr)) hrest hq

theorem node?_of_create {t t' : Tree} {p : Path} (h : (Step.create p).run? t = some t') :
    t'.node? p = some (.file []) := by
  cases done_of_run? h with
  | created _ hp => exact node?_put_self (ne_nil_of_node? hp) _

theorem node?_of_append {t t' : Tree} {p : Path} {data content : Bytes}
    (h : (Step.append p data).run? t = some t') (hp : t.node? p = some (.file content)) :
    t'.node? p = some (.file (content ++ data)) := by
  cases done_of_run? h with
  | appended hp' =>
      cases hp'.symm.trans hp
      exact node?_put_self (ne_nil_of_node? (t := t) (by simp [hp])) _

theorem rename_eq_some {t t' : Tree} {p q : Path} (hpq : p ≠ q)
    (h : (Step.rename p q).run? t = some t') :
    ∃ content, t.node? p = some (.file content) ∧ t.reachable q = true ∧
      t.node? q ≠ some .directory ∧ t' = (t.put q (.file content)).remove p := by
  cases done_of_run? h with
  | kept => exact absurd rfl hpq
  | renamed hp _ hreachable hq => exact ⟨_, hp, hreachable, hq, rfl⟩

/-- Where a file is put in place of a file, the directories stay. -/
theorem node?_renamed_of_directory {p q r : Path} {content : Bytes}
    (hp : t.node? p = some (.file content)) (hq : t.node? q ≠ some .directory)
    (hr : t.node? r = some .directory) :
    ((t.put q (.file content)).remove p).node? r = some .directory := by
  have hpr : p ≠ r := by
    rintro rfl
    simp [hp] at hr
  rw [node?_remove_of_ne hpr]
  exact node?_put_of_directory hq hr _

theorem Spares.rename {t t' : Tree} {p q other : Path} (hpq : p ≠ q) (hp : p ≠ other)
    (hq : q ≠ other) (h : (Step.rename p q).run? t = some t') : Spares other t t' := by
  obtain ⟨content, hfile, _, hdirectory, rfl⟩ := rename_eq_some hpq h
  refine ⟨?_, fun r hr => node?_renamed_of_directory hfile hdirectory hr⟩
  rw [node?_remove_of_ne hp, node?_put_of_ne hq]

/-- A replacement, however it ends, spares what it is not about. -/
theorem Spares.replaceWith_of_ne {data : Bytes} {other : Path} (htarget : temporary path ≠ path)
    (htemporary : temporary path ≠ other) (hancestors : other ∉ path.ancestors)
    (hne : path ≠ other) (t : Tree) (fault : Option Fault) :
    Spares other t (t.replaceWith path data fault).1 :=
  replaceWith_induction (.refl other) .trans
    (fun _ hs _ _ hrun => .step hrun (hs.avoids htemporary hancestors))
    (fun _ _ hrun => .rename htarget htemporary hne hrun) t fault

/-- What makes a path readable, seen from its last name. -/
theorem way_of_ancestors {t : Tree} (hreachable : t.reachable path = true)
    (hancestors : ∀ q name, q ++ [name] ∈ path.ancestors →
      fits name = true ∧ t.node? (q ++ [name]) = some .directory) : t.Way [] path := by
  intro q name rest hpath
  rw [List.nil_append]
  constructor
  · rcases List.eq_nil_or_concat q with rfl | ⟨q, other, rfl⟩
    · rfl
    · rw [List.concat_eq_append] at hpath ⊢
      exact (hancestors q other (mem_ancestors (by simp) hpath)).2
  · rcases rest with _ | ⟨other, rest⟩
    · rw [hpath] at hreachable
      exact ((reachable_concat t q name).1 hreachable).1
    · have hmem : q ++ [name] ∈ path.ancestors :=
        mem_ancestors (by simp) (hpath.trans (List.append_cons q name (other :: rest)))
      exact (hancestors q name hmem).1

/-- The tree that a successful replacement leaves holds the new content. -/
theorem read?_replace {data : Bytes} (htemporary : temporary path ≠ path) {t t' : Tree}
    (h : t.replace path data = (t', .ok ())) : t'.read? path = .ok data := by
  have hne : ∀ q ∈ path.ancestors, q ≠ path := by
    rintro q hq rfl
    exact not_mem_ancestors_self hq
  obtain ⟨t₀, hdirectories, h⟩ := runSteps_append_eq_ok h
  obtain ⟨t₁, hcreate, h⟩ := runSteps_cons_eq_ok h
  obtain ⟨t₂, happend, h⟩ := runSteps_cons_eq_ok h
  obtain ⟨_, ⟨⟩, h⟩ := runSteps_cons_eq_ok h
  obtain ⟨_, hrename, ⟨⟩⟩ := runSteps_cons_eq_ok h
  have hspares : Spares path t₀ t₂ :=
    (Spares.step hcreate htemporary).trans (Spares.step happend htemporary)
  have hcontent := node?_of_append happend (node?_of_create hcreate)
  obtain ⟨content, hfile, hreachable, hdirectory, rfl⟩ := rename_eq_some htemporary hrename
  cases hcontent.symm.trans hfile
  have hway : t₂.Way [] path := by
    refine way_of_ancestors hreachable fun q name hq => ?_
    obtain ⟨hfits, hdir⟩ := runSteps_makeDirectory hne hdirectories hq
    exact ⟨hfits, hspares.directory _ hdir⟩
  refine read?_eq_ok_iff.2 ⟨fun q name rest hpath => ?_, ?_⟩
  · obtain ⟨hdir, hfits⟩ := hway q name rest hpath
    exact ⟨node?_renamed_of_directory hfile hdirectory hdir, hfits⟩
  · rw [node?_remove_of_ne htemporary]
    exact node?_put_self (ne_nil_of_node? hdirectory) _

theorem replaceWith_eq_ok {data : Bytes} {fault : Option Fault} {t t' : Tree}
    (h : t.replaceWith path data fault = (t', .ok ())) : t.replace path data = (t', .ok ()) := by
  cases fault with
  | none => exact h
  | some fault =>
      rw [replaceWith, replaceUntil] at h
      split at h
      · exact h
      · split at h
        · cases h
        · cases h

theorem read?_replaceWith {data : Bytes} {fault : Option Fault}
    (htemporary : temporary path ≠ path) {t t' : Tree}
    (h : t.replaceWith path data fault = (t', .ok ())) : t'.read? path = .ok data :=
  read?_replace htemporary (replaceWith_eq_ok h)

end Tree

end Conflux.Files

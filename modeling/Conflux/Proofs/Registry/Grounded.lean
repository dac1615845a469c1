import Conflux.Proofs.Registry
import Mathlib.Data.List.Nodup
import Mathlib.Logic.Function.Iterate
import Mathlib.Logic.Relation

/-!
What a registry is made of: the registrations that were accepted, in their order. Everything that
it answers can be read off that row. No name is in it twice, and a registration that names a
dependency has it before it in the row; so the place in the row falls from a type to its
dependency, and whoever follows the dependencies comes to an end. A refused call adds nothing to
the row, and nothing to the registry, although a registry that is changed in place is changed
twice by one call.
-/

namespace Conflux.Registry

/-! ### Calls in place -/

/-- Registers in place, with one check and one change after the other. What was changed before a
refusal would stay so. -/
def enroll (x : Registration) : ExceptT RegistrationError (StateM Registry) Unit := do
  if (← get).registrations.contains x.bundleType then
    throw (.duplicate x.bundleType)
  if let some d := x.dependsOn then
    if d = x.bundleType then
      throw (.selfDependency x.bundleType)
    if !(← get).registrations.contains d then
      throw (.unknownDependency x.bundleType d)
    modify (·.addWaiter d x.bundleType)
  modify fun r => { r with registrations := r.registrations.put x.bundleType x }

def call (r : Registry) (x : Registration) : Except RegistrationError Unit × Registry :=
  (enroll x).run.run r

/-- Nothing is changed in place before a call is sure to be accepted. -/
theorem call_eq (r : Registry) (x : Registration) : r.call x =
    match r.register x with
    | .ok r' => (.ok (), r')
    | .error e => (.error e, r) := by
  rw [call, enroll, register]
  by_cases hknown : r.registrations.contains x.bundleType = true
  · rw [if_pos hknown]
    change (if r.registrations.contains x.bundleType = true then _ else _ :
      ExceptT RegistrationError (StateM Registry) Unit).run.run r = _
    rw [if_pos hknown]
    rfl
  · rw [if_neg hknown]
    change (if r.registrations.contains x.bundleType = true then _ else _ :
      ExceptT RegistrationError (StateM Registry) Unit).run.run r = _
    rw [if_neg hknown]
    cases x.dependsOn with
    | none => rfl
    | some d =>
        by_cases hself : d = x.bundleType
        · simp only [if_pos hself]
          rfl
        · simp only [if_neg hself]
          change (if (!r.registrations.contains d) = true then _ else _ :
            ExceptT RegistrationError (StateM Registry) Unit).run.run r = _
          cases r.registrations.contains d <;> rfl

def callAll (r : Registry) (calls : List Registration) : Registry :=
  calls.foldl (fun r x => (r.call x).2) r

theorem callAll_empty (calls : List Registration) : empty.callAll calls = ofCalls calls := by
  refine congrArg (fun step => calls.foldl step empty) ?_
  funext r x
  rw [call_eq, attempt]
  cases r.register x <;> rfl

theorem callAll_append (r : Registry) (calls more : List Registration) :
    r.callAll (calls ++ more) = (r.callAll calls).callAll more :=
  List.foldl_append

/-! ### What was accepted -/

def accepted (r : Registry) : List Registration → List Registration
  | [] => []
  | x :: xs =>
      match r.call x with
      | (.ok _, r) => x :: accepted r xs
      | (.error _, r) => accepted r xs

/-- The registry is made of the registrations in `xs`, which came in this order. -/
structure MadeOf (r : Registry) (xs : List Registration) : Prop where
  distinct : (xs.map (·.bundleType)).Nodup
  get?_iff : ∀ t x, r.get? t = some x ↔ x ∈ xs ∧ x.bundleType = t
  grounded : ∀ earlier x later, xs = earlier ++ x :: later →
    ∀ d, x.dependsOn = some d → d ∈ earlier.map (·.bundleType)
  dependents_eq : ∀ t, r.dependents t =
    (xs.filter fun x => x.dependsOn = some t).map (·.bundleType)

variable {r r' : Registry} {xs : List Registration} {x : Registration}

/-- What is accepted is new, and what it depends on is not. -/
theorem new_of_register (h : r.register x = .ok r') :
    r.get? x.bundleType = none ∧ ∀ d, x.dependsOn = some d → (r.get? d).isSome := by
  unfold register at h
  split at h
  · cases h
  · next hknown =>
      rw [Table.contains, Bool.not_eq_true, Option.isSome_eq_false_iff,
        Option.isNone_iff_eq_none] at hknown
      refine ⟨hknown, fun d hd => ?_⟩
      rw [hd] at h
      dsimp only at h
      split at h
      · cases h
      · split at h
        · next hdependency => exact hdependency
        · cases h

theorem madeOf_empty : MadeOf empty [] where
  distinct := List.nodup_nil
  get?_iff := fun _ _ => ⟨nofun, nofun⟩
  grounded := fun _ _ _ h => absurd h.symm (List.append_ne_nil_of_right_ne_nil _ nofun)
  dependents_eq := fun _ => rfl

theorem MadeOf.mem_types_iff (h : MadeOf r xs) (t : String) :
    t ∈ xs.map (·.bundleType) ↔ (r.get? t).isSome := by
  rw [Option.isSome_iff_exists]
  simp only [h.get?_iff, List.mem_map]

/-- An accepted registration is one more at the end. -/
theorem MadeOf.register (h : MadeOf r xs) (hregister : r.register x = .ok r') :
    MadeOf r' (xs ++ [x]) := by
  obtain ⟨hnew, hdependency⟩ := new_of_register hregister
  have hfresh : x.bundleType ∉ xs.map (·.bundleType) := by
    rw [h.mem_types_iff, hnew]
    exact Bool.false_ne_true
  refine ⟨?_, fun t y => ?_, fun earlier y later hsplit d hd => ?_, fun t => ?_⟩
  · rw [List.map_append, List.map_singleton, ← List.concat_eq_append]
    exact List.Nodup.concat hfresh h.distinct
  · rw [get?, registrations_of_register hregister, Table.get?_put, List.mem_append,
      List.mem_singleton]
    split
    · next ht =>
        constructor
        · intro hy
          obtain rfl := Option.some.inj hy
          exact ⟨.inr rfl, ht⟩
        · rintro ⟨hy | rfl, hyt⟩
          · exact absurd (List.mem_map.2 ⟨y, hy, hyt.trans ht.symm⟩) hfresh
          · rfl
    · next ht =>
        rw [← get?, h.get?_iff]
        constructor
        · rintro ⟨hy, hyt⟩
          exact ⟨.inl hy, hyt⟩
        · rintro ⟨hy | rfl, hyt⟩
          · exact ⟨hy, hyt⟩
          · exact absurd hyt ht
  · obtain rfl | ⟨later, z, rfl⟩ := List.eq_nil_or_concat later
    -- The new one itself names a type that is there, and the others stand where they stood.
    · obtain ⟨rfl, hlast⟩ := List.append_inj' hsplit rfl
      obtain rfl := List.singleton_inj.1 hlast
      exact (h.mem_types_iff d).2 (hdependency d hd)
    · rw [List.concat_eq_append, ← List.cons_append, ← List.append_assoc] at hsplit
      exact h.grounded earlier y later (List.append_inj_left' hsplit rfl) d hd
  · rw [dependents_of_register hregister, h.dependents_eq, List.filter_append, List.map_append]
    by_cases ht : x.dependsOn = some t <;> simp [ht]

theorem MadeOf.callAll (h : MadeOf r xs) (calls : List Registration) :
    MadeOf (r.callAll calls) (xs ++ r.accepted calls) := by
  induction calls generalizing r xs with
  | nil =>
      rw [accepted, List.append_nil]
      exact h
  | cons x calls ih =>
      rw [accepted, Registry.callAll, List.foldl_cons, call_eq]
      cases hregister : r.register x with
      | error e => exact ih h
      | ok r' =>
          have hmade := ih (h.register hregister)
          rwa [List.append_assoc, List.singleton_append] at hmade

/-! ### Following the dependencies -/

def dependency? (r : Registry) (t : String) : Option String :=
  (r.get? t).bind (·.dependsOn)

/-- The place of a type in the row. What is not in it stands behind the end. -/
def rank (xs : List Registration) (t : String) : Nat := (xs.map (·.bundleType)).idxOf t

theorem MadeOf.rank_lt (h : MadeOf r xs) {t d : String} (hd : r.dependency? t = some d) :
    rank xs d < rank xs t := by
  obtain ⟨x, hx, hdepends⟩ := Option.bind_eq_some_iff.1 hd
  obtain ⟨hmem, rfl⟩ := (h.get?_iff t x).1 hx
  obtain ⟨earlier, later, rfl⟩ := List.append_of_mem hmem
  have hbefore := h.grounded earlier x later rfl d hdepends
  have hnot : x.bundleType ∉ earlier.map (·.bundleType) := by
    have hdistinct := h.distinct
    rw [List.map_append, List.map_cons, List.nodup_middle, List.nodup_cons, List.mem_append,
      not_or] at hdistinct
    exact hdistinct.1.1
  rw [rank, rank, List.map_append, List.idxOf_append_of_mem hbefore,
    List.idxOf_append_of_notMem hnot, List.map_cons, List.idxOf_cons_self, Nat.add_zero]
  exact List.idxOf_lt_length_of_mem hbefore

theorem rank_le (xs : List Registration) (t : String) : rank xs t ≤ xs.length := by
  rw [rank, ← List.length_map (·.bundleType)]
  exact List.idxOf_le_length

/-- No dependency leads back to where it came from. -/
theorem MadeOf.not_transGen (h : MadeOf r xs) (t : String) :
    ¬ Relation.TransGen (fun t d => r.dependency? t = some d) t t := by
  have hfalls {t d : String} (hd : Relation.TransGen (fun t d => r.dependency? t = some d) t d) :
      rank xs d < rank xs t := by
    induction hd with
    | single hd => exact h.rank_lt hd
    | tail _ hd ih => exact Nat.lt_trans (h.rank_lt hd) ih
  exact fun hcycle => Nat.lt_irrefl _ (hfalls hcycle)

/-- The type that is reached from `t` by following `n` dependencies, unless they end before. -/
def follow? (r : Registry) (n : Nat) (t : String) : Option String :=
  (Option.bind · r.dependency?)^[n] (some t)

theorem follow?_succ (r : Registry) (n : Nat) (t : String) :
    r.follow? (n + 1) t = (r.dependency? t).bind (r.follow? n) := by
  rw [follow?, Function.iterate_succ_apply, Option.bind_some]
  cases r.dependency? t with
  | none =>
      rw [Option.bind_none]
      exact Function.iterate_fixed rfl n
  | some d => rfl

theorem MadeOf.follow?_eq_none (h : MadeOf r xs) {n : Nat} {t : String} (hn : rank xs t < n) :
    r.follow? n t = none := by
  induction n generalizing t with
  | zero => exact absurd hn (Nat.not_lt_zero _)
  | succ n ih =>
      rw [follow?_succ, Option.bind_eq_none_iff]
      intro d hd
      have hfalls := h.rank_lt hd
      exact ih (by omega)

/-- Whatever was called on a new registry, and whether or not it was refused, the registry is made
of the registrations that were accepted, in their order. Each of them is found under its name and
nothing else is; the dependency of each came before it, so it is there, and who follows the
dependencies from any type comes to an end after no more steps than there are registrations, and
never back to where he was. With a type are listed those that depend on it, once each and in the
order of their registration. What is registered is still the same after any further calls, and a
call that is refused leaves the registry as it was. -/
theorem stays_grounded (calls : List Registration) :
    let r := empty.callAll calls
    let xs := empty.accepted calls
    r = ofCalls calls ∧ MadeOf r xs ∧
      (∀ t d, r.dependency? t = some d → (r.get? d).isSome) ∧
      (∀ t, r.follow? (xs.length + 1) t = none) ∧
      (∀ t, ¬ Relation.TransGen (fun t d => r.dependency? t = some d) t t) ∧
      (∀ t, (r.dependents t).Nodup) ∧
      (∀ more t x, r.get? t = some x → (empty.callAll (calls ++ more)).get? t = some x) ∧
      ∀ x e, (r.call x).1 = .error e → (r.call x).2 = r := by
  intro r xs
  have h : MadeOf r xs := madeOf_empty.callAll calls
  have hends (t : String) : r.follow? (xs.length + 1) t = none :=
    h.follow?_eq_none (Nat.lt_succ_of_le (rank_le xs t))
  refine ⟨callAll_empty calls, h, fun t d hd => ?_, hends, h.not_transGen, fun t => ?_,
    fun more t x hx => ?_, fun x e he => ?_⟩
  · rw [← h.mem_types_iff, ← List.idxOf_lt_length_iff, List.length_map]
    exact Nat.lt_of_lt_of_le (h.rank_lt hd) (rank_le xs t)
  · rw [h.dependents_eq]
    exact h.distinct.sublist (List.filter_sublist.map _)
  · have hmore := h.callAll more
    obtain ⟨hmem, ht⟩ := (h.get?_iff t x).1 hx
    rw [callAll_append]
    exact (hmore.get?_iff t x).2 ⟨List.mem_append_left _ hmem, ht⟩
  · rw [call_eq] at he ⊢
    cases hregister : r.register x with
    | ok r' =>
        rw [hregister] at he
        cases he
    | error e' => rfl

end Conflux.Registry

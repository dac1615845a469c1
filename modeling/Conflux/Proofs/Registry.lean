import Conflux.Registry

/-!
A registry comes to be by calls of `register`, of which some may be refused. Whatever
the calls were, a type is looked up under its own name, and it is listed with the type
that it depends on.
-/

namespace Conflux.Registry

/-- A call of `register`. A refused one changes nothing. -/
def attempt (r : Registry) (x : Registration) : Registry :=
  match r.register x with
  | .ok r => r
  | .error _ => r

def ofCalls (calls : List Registration) : Registry := calls.foldl attempt empty

/-- What holds of the empty registry and survives every call holds after any row of them. -/
theorem ofCalls_invariant {P : Registry → Prop} (hempty : P empty)
    (hattempt : ∀ r x, P r → P (r.attempt x)) (calls : List Registration) : P (ofCalls calls) := by
  have hfold (r : Registry) (hr : P r) : P (calls.foldl attempt r) := by
    induction calls generalizing r with
    | nil => exact hr
    | cons x calls ih => exact ih _ (hattempt r x hr)
  exact hfold empty hempty

/-- How the bundles of a type combine. Of a type that is not registered there are none. -/
def mode (r : Registry) (bundleType : String) : SyncMode :=
  match r.get? bundleType with
  | some x => x.mode
  | none => .complete

theorem mode_eq {r : Registry} {bundleType : String} {x : Registration}
    (h : r.get? bundleType = some x) : r.mode bundleType = x.mode := by
  rw [mode, h]

/-- Every registration stands under the name of its type. -/
def Named (r : Registry) : Prop := ∀ t x, r.get? t = some x → x.bundleType = t

theorem named_empty : empty.Named := by
  intro t x h
  cases h

/-- A call that is not refused adds the registration and nothing else. -/
theorem registrations_of_register {r r' : Registry} {x : Registration}
    (h : r.register x = .ok r') : r'.registrations = r.registrations.put x.bundleType x := by
  unfold register at h
  split at h
  · cases h
  · split at h
    · cases h
      rfl
    · split at h
      · cases h
      · split at h
        · cases h
          rfl
        · cases h

/-- Whoever names a dependency is added to those that wait for it. -/
theorem dependents_of_register {r r' : Registry} {x : Registration} (h : r.register x = .ok r')
    (d : String) : r'.dependents d =
      if x.dependsOn = some d then r.dependents d ++ [x.bundleType] else r.dependents d := by
  unfold register at h
  split at h
  · cases h
  · split at h
    · next hd =>
        cases h
        rw [hd, if_neg (by simp)]
        rfl
    · next c hc =>
        split at h
        · cases h
        · split at h
          · cases h
            rw [hc]
            change ((r.waiters.put c (r.dependents c ++ [x.bundleType])).get? d).getD [] = _
            rw [Table.get?_put]
            by_cases hcd : c = d
            · simp [hcd]
            · simp [hcd, dependents]
          · cases h

theorem Named.attempt {r : Registry} (h : r.Named) (x : Registration) : (r.attempt x).Named := by
  rw [Registry.attempt]
  split
  · next r' hr =>
      intro t y hy
      rw [get?, registrations_of_register hr, Table.get?_put] at hy
      split at hy
      · next ht =>
          cases hy
          exact ht
      · exact h t y hy
  · exact h

theorem named_ofCalls (calls : List Registration) : (ofCalls calls).Named :=
  ofCalls_invariant named_empty (fun _ x h => h.attempt x) calls

/-- Whoever depends on a type is listed with it. -/
def Listed (r : Registry) : Prop :=
  ∀ t x d, r.get? t = some x → x.dependsOn = some d → t ∈ r.dependents d

theorem Listed.attempt {r : Registry} (h : r.Listed) (x : Registration) :
    (r.attempt x).Listed := by
  rw [Registry.attempt]
  split
  · next r' hr =>
      intro t y d hy hd
      rw [dependents_of_register hr]
      rw [get?, registrations_of_register hr, Table.get?_put] at hy
      split at hy
      · next ht =>
          obtain rfl := Option.some.inj hy
          rw [if_pos hd, ht]
          simp
      · have hmem := h t y d hy hd
        split
        · exact List.mem_append_left _ hmem
        · exact hmem
  · exact h

end Conflux.Registry

/-!
Lists whose items are looked at one by one, where one that comes to nothing spoils the whole.
-/

namespace Conflux

variable {α β γ : Type} {f : α → Option β} {l : List α}

theorem mapM_eq_some_iff {ys : List β} : l.mapM f = some ys ↔ l.map f = ys.map some := by
  induction l generalizing ys with
  | nil => cases ys <;> simp
  | cons x l ih =>
      rw [List.mapM_cons, List.map_cons]
      cases hx : f x with
      | none => cases ys <;> simp
      | some y =>
          cases ys with
          | nil => cases l.mapM f <;> simp
          | cons z zs =>
              rw [List.map_cons, List.cons.injEq, ← ih]
              cases l.mapM f <;> simp

theorem isSome_mapM_iff : (l.mapM f).isSome ↔ ∀ x ∈ l, (f x).isSome := by
  induction l with
  | nil => exact iff_of_true rfl fun x hx => absurd hx List.not_mem_nil
  | cons x l ih =>
      rw [List.forall_mem_cons, ← ih, List.mapM_cons]
      cases hx : f x with
      | none => simp
      | some y => cases hl : l.mapM f <;> simp

theorem mem_of_mapM {ys : List β} (h : l.mapM f = some ys) {y : β} (hy : y ∈ ys) :
    ∃ x ∈ l, f x = some y :=
  List.mem_map.1 (mapM_eq_some_iff.1 h ▸ List.mem_map_of_mem hy)

/-- What every item keeps is kept by the list. -/
theorem map_of_mapM {key : β → γ} {g : α → γ} {ys : List β} (h : l.mapM f = some ys)
    (hkey : ∀ x y, f x = some y → key y = g x) : ys.map key = l.map g := by
  have hall := isSome_mapM_iff.1 (Option.isSome_of_eq_some h)
  have hsome : (ys.map key).map some = (l.map g).map some := by
    calc (ys.map key).map some
      _ = (ys.map some).map (Option.map key) := by simp
      _ = (l.map f).map (Option.map key) := by rw [mapM_eq_some_iff.1 h]
      _ = (l.map g).map some := by
          rw [List.map_map, List.map_map, List.map_inj_left]
          intro x hx
          obtain ⟨y, hy⟩ := Option.isSome_iff_exists.1 (hall x hx)
          simp [hy, hkey x y hy]
  exact List.map_inj_right (fun _ _ => Option.some.inj) |>.1 hsome

end Conflux

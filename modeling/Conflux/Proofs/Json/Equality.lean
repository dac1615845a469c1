import Conflux.Json.Value

/-!
Equality of JSON values is an equivalence. What an equal key replaces is therefore also
replaced by whatever replaces that key, and values can stand for keys of which equal ones are
the same.
-/

namespace Conflux

theorem Double.eqv_refl (x : Double) : x.eqv x = true := by
  rw [Double.eqv, beq_self_eq_true, Bool.true_or]

theorem Double.eqv_symm {x y : Double} (h : x.eqv y = true) : y.eqv x = true := by
  simp only [Double.eqv, Bool.or_eq_true, Bool.and_eq_true, beq_iff_eq] at *
  exact h.imp Eq.symm And.symm

theorem Double.eqv_trans {x y z : Double} (hxy : x.eqv y = true) (hyz : y.eqv z = true) :
    x.eqv z = true := by
  simp only [Double.eqv, Bool.or_eq_true, Bool.and_eq_true, beq_iff_eq] at *
  rcases hxy with rfl | ⟨hx, hy⟩
  · exact hyz
  · rcases hyz with rfl | ⟨_, hz⟩
    · exact .inr ⟨hx, hy⟩
    · exact .inr ⟨hx, hz⟩

namespace Json

mutual

theorem eqv_refl (x : Json) : x.eqv x = true := by
  match x with
  | null => rfl
  | bool _ | int _ | string _ => simp only [eqv, beq_self_eq_true]
  | double x => exact Double.eqv_refl x
  | array xs => exact eqvItems_refl xs
  | object xs => exact eqvMembers_refl xs

theorem eqvItems_refl (xs : List Json) : eqvItems xs xs = true := by
  match xs with
  | [] => rfl
  | x :: xs => rw [eqvItems, eqv_refl x, eqvItems_refl xs, Bool.and_self]

theorem eqvMembers_refl (xs : List (String × Json)) : eqvMembers xs xs = true := by
  match xs with
  | [] => rfl
  | (k, x) :: xs =>
      rw [eqvMembers, beq_self_eq_true, eqv_refl x, eqvMembers_refl xs, Bool.and_self,
        Bool.and_self]

end

mutual

theorem eqv_symm {x y : Json} (h : x.eqv y = true) : y.eqv x = true := by
  match x, y with
  | null, null => rfl
  | bool _, bool _ | int _, int _ | string _, string _ =>
      simp only [eqv, beq_iff_eq] at *
      exact h.symm
  | double _, double _ =>
      simp only [eqv] at *
      exact Double.eqv_symm h
  | array _, array _ =>
      simp only [eqv] at *
      exact eqvItems_symm h
  | object _, object _ =>
      simp only [eqv] at *
      exact eqvMembers_symm h

theorem eqvItems_symm {xs ys : List Json} (h : eqvItems xs ys = true) :
    eqvItems ys xs = true := by
  match xs, ys with
  | [], [] => rfl
  | x :: xs, y :: ys =>
      simp only [eqvItems, Bool.and_eq_true] at *
      exact ⟨eqv_symm h.1, eqvItems_symm h.2⟩

theorem eqvMembers_symm {xs ys : List (String × Json)} (h : eqvMembers xs ys = true) :
    eqvMembers ys xs = true := by
  match xs, ys with
  | [], [] => rfl
  | (k, x) :: xs, (l, y) :: ys =>
      simp only [eqvMembers, Bool.and_eq_true, beq_iff_eq] at *
      exact ⟨⟨h.1.1.symm, eqv_symm h.1.2⟩, eqvMembers_symm h.2⟩

end

mutual

theorem eqv_trans {x y z : Json} (hxy : x.eqv y = true) (hyz : y.eqv z = true) :
    x.eqv z = true := by
  match x, y, z with
  | null, null, null => rfl
  | bool _, bool _, bool _ | int _, int _, int _ | string _, string _, string _ =>
      simp only [eqv, beq_iff_eq] at *
      exact hxy.trans hyz
  | double _, double _, double _ =>
      simp only [eqv] at *
      exact Double.eqv_trans hxy hyz
  | array _, array _, array _ =>
      simp only [eqv] at *
      exact eqvItems_trans hxy hyz
  | object _, object _, object _ =>
      simp only [eqv] at *
      exact eqvMembers_trans hxy hyz

theorem eqvItems_trans {xs ys zs : List Json} (hxy : eqvItems xs ys = true)
    (hyz : eqvItems ys zs = true) : eqvItems xs zs = true := by
  match xs, ys, zs with
  | [], [], [] => rfl
  | x :: xs, y :: ys, z :: zs =>
      simp only [eqvItems, Bool.and_eq_true] at *
      exact ⟨eqv_trans hxy.1 hyz.1, eqvItems_trans hxy.2 hyz.2⟩

theorem eqvMembers_trans {xs ys zs : List (String × Json)} (hxy : eqvMembers xs ys = true)
    (hyz : eqvMembers ys zs = true) : eqvMembers xs zs = true := by
  match xs, ys, zs with
  | [], [], [] => rfl
  | (k, x) :: xs, (l, y) :: ys, (m, z) :: zs =>
      simp only [eqvMembers, Bool.and_eq_true, beq_iff_eq] at *
      exact ⟨⟨hxy.1.1.trans hyz.1.1, eqv_trans hxy.1.2 hyz.1.2⟩, eqvMembers_trans hxy.2 hyz.2⟩

end

def equality : Setoid Json where
  r x y := x.eqv y = true
  iseqv := ⟨eqv_refl, eqv_symm, eqv_trans⟩

/-- What a value is as a key. -/
def Key : Type := Quotient equality

instance : DecidableEq Key :=
  @Quotient.decidableEq Json equality fun x y => inferInstanceAs (Decidable (x.eqv y = true))

def key (x : Json) : Key := Quotient.mk equality x

theorem key_eq_iff {x y : Json} : x.key = y.key ↔ x.eqv y = true :=
  ⟨Quotient.exact, fun h => Quotient.sound (s := equality) h⟩

end Json

end Conflux

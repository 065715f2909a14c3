import Mathlib.Data.List.Forall2
import RowAlgebra.Error

/-!
# How computations end

`Ends x Good Bad` says that the computation `x` comes to a value of the kind `Good`, or fails with
an error of the kind `Bad`. Sequences, maps and folds of computations end as their steps do
(`Ends.bind`, `Ends.mapM`, `Ends.foldlM`), so what a long computation comes to is proved along its
text. A computation that cannot fail has no bad errors at all.
-/

namespace RowAlgebra

def Ends {β : Type} (x : Except Error β) (Good : β → Prop) (Bad : Error → Prop) : Prop :=
  match x with
  | .ok v => Good v
  | .error e => Bad e

namespace Ends

variable {β γ : Type} {Good Good' : β → Prop} {Bad Bad' : Error → Prop} {x : Except Error β}

theorem ok {v : β} (h : Good v) : Ends (.ok v) Good Bad :=
  h

theorem error {e : Error} (h : Bad e) : Ends (.error e : Except Error β) Good Bad :=
  h

theorem imp (h : Ends x Good Bad) (hg : ∀ v, Good v → Good' v) : Ends x Good' Bad := by
  cases x with
  | ok v => exact hg v h
  | error e => exact h

theorem mapBad (h : Ends x Good Bad) (hb : ∀ e, Bad e → Bad' e) : Ends x Good Bad' := by
  cases x with
  | ok v => exact h
  | error e => exact hb e h

theorem of_ok (h : Ends x Good Bad) {v : β} (hx : x = .ok v) : Good v := by
  subst hx
  exact h

theorem of_error (h : Ends x Good Bad) {e : Error} (hx : x = .error e) : Bad e := by
  subst hx
  exact h

/-- A computation without bad errors comes to a good value. -/
theorem exists_ok (h : Ends x Good fun _ => False) : ∃ v, x = .ok v ∧ Good v := by
  cases x with
  | ok v => exact ⟨v, rfl, h⟩
  | error e => exact absurd h id

/-- A computation is good in every way that it ensures. -/
theorem and (h : Ends x Good Bad) (h' : Ends x Good' fun _ => True) :
    Ends x (fun v => Good v ∧ Good' v) Bad := by
  cases x with
  | ok v => exact ⟨h, h'⟩
  | error e => exact h

theorem any (x : Except Error β) : Ends x (fun _ => True) fun _ => True := by
  cases x <;> trivial

/-- Every computation ends with what it comes to. -/
theorem self (x : Except Error β) : Ends x (fun v => x = .ok v) fun _ => True := by
  cases x with
  | ok v => rfl
  | error e => trivial

theorem ite {c : Prop} [Decidable c] {y : Except Error β} (hx : Ends x Good Bad)
    (hy : Ends y Good Bad) : Ends (if c then x else y) Good Bad := by
  split
  · exact hx
  · exact hy

theorem bind {f : β → Except Error γ} {Goal : γ → Prop} (hx : Ends x Good Bad)
    (hf : ∀ v, Good v → Ends (f v) Goal Bad) : Ends (x >>= f) Goal Bad := by
  cases x with
  | ok v => exact hf v hx
  | error e => exact hx

/-- A computation may go on in either way if it does not matter for what it comes to. -/
theorem bind_congr {f g : β → Except Error γ} (hx : Ends x (fun v => f v = g v) Bad) :
    x >>= f = x >>= g := by
  cases x with
  | ok v => exact hx
  | error e => rfl

theorem mapM {f : β → Except Error γ} {R : β → γ → Prop} {l : List β}
    (hf : ∀ b ∈ l, Ends (f b) (R b) Bad) : Ends (l.mapM f) (List.Forall₂ R l) Bad := by
  induction l with
  | nil => exact .nil
  | cons b l ih =>
    rw [List.mapM_cons]
    refine (hf b List.mem_cons_self).bind fun c hc => ?_
    refine (ih fun b' hb' => hf b' (List.mem_cons_of_mem b hb')).bind fun cs hcs => ?_
    exact .cons hc hcs

/-- A fold keeps what each step keeps; `Inv` may speak of the items met so far. -/
theorem foldlM {f : γ → β → Except Error γ} {Inv : List β → γ → Prop} {l : List β} {init : γ}
    (h : Inv [] init) (hf : ∀ done b s, b ∈ l → Inv done s → Ends (f s b) (Inv (done ++ [b])) Bad) :
    Ends (l.foldlM f init) (Inv l) Bad := by
  suffices H : ∀ done s, Inv done s → Ends (l.foldlM f s) (fun r => Inv (done ++ l) r) Bad from
    H [] init h
  clear h
  induction l with
  | nil =>
    intro done s hs
    exact (List.append_nil done).symm ▸ hs
  | cons b l ih =>
    intro done s hs
    rw [List.foldlM_cons]
    refine (hf done b s List.mem_cons_self hs).bind fun s' hs' => ?_
    refine (ih (fun done' b' s'' hb' => hf done' b' s'' (List.mem_cons_of_mem b hb')) _ s' hs').imp
      fun r hr => ?_
    rwa [List.append_assoc] at hr

end Ends

/-- A computation succeeds if both of its parts do. -/
theorem bind_eq_ok_iff {β γ : Type} {x : Except Error β} {f : β → Except Error γ} {v : γ} :
    x >>= f = .ok v ↔ ∃ b, x = .ok b ∧ f b = .ok v := by
  constructor
  · intro h
    cases x with
    | ok b => exact ⟨b, rfl, h⟩
    | error e => cases h
  · rintro ⟨b, rfl, h⟩
    exact h

/-- What a computation comes to if it does not fail. -/
abbrev Ensures {β : Type} (x : Except Error β) (Good : β → Prop) : Prop :=
  Ends x Good fun _ => True

/-- What a computation fails with if it fails. -/
abbrev Fails {β : Type} (x : Except Error β) (Bad : Error → Prop) : Prop :=
  Ends x (fun _ => True) Bad

namespace Fails

variable {β γ : Type} {Bad : Error → Prop}

theorem ok (v : β) : Fails (.ok v) Bad :=
  trivial

theorem bind {x : Except Error β} {f : β → Except Error γ} (hx : Fails x Bad)
    (hf : ∀ v, Fails (f v) Bad) : Fails (x >>= f) Bad :=
  Ends.bind hx fun v _ => hf v

theorem ite {c : Prop} [Decidable c] {x y : Except Error β} (hx : Fails x Bad)
    (hy : Fails y Bad) : Fails (if c then x else y) Bad :=
  Ends.ite hx hy

theorem mapM {f : β → Except Error γ} (hf : ∀ b, Fails (f b) Bad) (l : List β) :
    Fails (l.mapM f) Bad :=
  (Ends.mapM fun b _ => hf b).imp fun _ _ => trivial

theorem mapM_vector {n : Nat} {f : β → Except Error γ} (hf : ∀ b, Fails (f b) Bad)
    (v : Vector β n) : Fails (v.mapM f) Bad := by
  cases h : v.mapM f with
  | ok w => exact ok w
  | error e =>
    have harray : v.toArray.mapM f = .error e := by
      rw [← Vector.toArray_mapM, h]
      rfl
    have hlist : v.toArray.toList.mapM f = .error e := by
      rw [← Array.toList_mapM, harray]
      rfl
    exact (mapM hf _).of_error hlist

theorem foldlM {f : γ → β → Except Error γ} (hf : ∀ s b, Fails (f s b) Bad) (l : List β)
    (init : γ) : Fails (l.foldlM f init) Bad := by
  let Inv : List β → γ → Prop := fun _ _ => True
  have h : Ends (l.foldlM f init) (Inv l) Bad := Ends.foldlM trivial fun _ b s _ _ => hf s b
  exact h

end Fails

end RowAlgebra

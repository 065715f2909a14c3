import RowAlgebra.Proofs.Ending

/-!
# Computations that end alike

`Together x y R` says that two computations fail both, or come both to values, and that these are
related by `R`. It does not matter which errors they fail with. Sequences of computations end alike if
their steps do (`Together.bind`), and what works on lists item by item does not show how they have been
cut (`Together.mapM_flatten`). Two computations come to equal values exactly if each value that one of
them can come to is one of the other (`together_eq_iff`).
-/

namespace RowAlgebra

def Together {β γ : Type} (x : Except Error β) (y : Except Error γ) (R : β → γ → Prop) : Prop :=
  match x, y with
  | .ok v, .ok w => R v w
  | .error _, .error _ => True
  | _, _ => False

namespace Together

variable {β γ δ ε : Type} {R S : β → γ → Prop} {x : Except Error β} {y : Except Error γ}

theorem ok {v : β} {w : γ} (h : R v w) : Together (.ok v) (.ok w) R :=
  h

theorem error {e e' : Error} : Together (.error e) (.error e') R :=
  trivial

theorem imp_of_ok (h : Together x y R) (hRS : ∀ v w, x = .ok v → y = .ok w → R v w → S v w) :
    Together x y S := by
  cases x <;> cases y <;> first | exact h | exact hRS _ _ rfl rfl h

/-- A computation comes to a value if the other one does. -/
theorem exists_ok (h : Together x y R) {v : β} (hx : x = .ok v) : ∃ w, y = .ok w ∧ R v w := by
  subst hx
  cases y with
  | ok w => exact ⟨w, rfl, h⟩
  | error e => exact absurd h id

theorem refl (x : Except Error β) : Together x x Eq := by
  cases x with
  | ok v => rfl
  | error e => trivial

theorem symm (h : Together x y R) : Together y x fun w v => R v w := by
  cases x <;> cases y <;> exact h

theorem trans {z : Except Error δ} {T : γ → δ → Prop} (h : Together x y R) (h' : Together y z T) :
    Together x z fun v u => ∃ w, R v w ∧ T w u := by
  cases x <;> cases y <;> cases z <;>
    first | exact trivial | exact absurd h id | exact absurd h' id | exact ⟨_, h, h'⟩

/-- What each of the computations ensures holds of their values, too. -/
theorem and (h : Together x y R) {P : β → Prop} {Q : γ → Prop} (hx : Ensures x P)
    (hy : Ensures y Q) : Together x y fun v w => R v w ∧ P v ∧ Q w := by
  cases x <;> cases y <;> first | exact h | exact ⟨h, hx, hy⟩

theorem bind {f : β → Except Error δ} {g : γ → Except Error ε} {T : δ → ε → Prop}
    (h : Together x y R) (hfg : ∀ v w, R v w → Together (f v) (g w) T) :
    Together (x >>= f) (y >>= g) T := by
  cases x with
  | ok v =>
    cases y with
    | ok w => exact hfg v w h
    | error e => exact absurd h id
  | error e =>
    cases y with
    | ok w => exact absurd h id
    | error e' => trivial

/-- The same computation, followed by two that end alike. -/
theorem bind_left {f : β → Except Error δ} {g : β → Except Error ε} {T : δ → ε → Prop}
    (x : Except Error β) (hfg : ∀ v, Together (f v) (g v) T) : Together (x >>= f) (x >>= g) T :=
  (refl x).bind fun v _ hv => hv ▸ hfg v

/-- A computation that goes on to related values ends like the one that does not. -/
theorem of_bind {f : β → Except Error δ} {S : δ → β → Prop}
    (h : Ensures x fun v => ∃ w, f v = .ok w ∧ S w v) : Together (x >>= f) x S := by
  cases x with
  | ok v =>
    obtain ⟨w, hw, hS⟩ := h
    exact (congrArg (Together · (.ok v) S) hw).mpr hS
  | error e => trivial

/-- Lists that are worked on one by one, each item by item, come to what their items come to. -/
theorem mapM_flatten {f : List β → Except Error (List δ)} {g : β → Except Error δ}
    {ls : List (List β)} (h : ∀ l ∈ ls, Together (f l) (l.mapM g) Eq) :
    Together (ls.mapM f) (ls.flatten.mapM g) fun vs v => vs.flatten = v := by
  induction ls with
  | nil => exact ok rfl
  | cons l ls ih =>
    obtain ⟨hl, hls⟩ := List.forall_mem_cons.1 h
    rw [List.mapM_cons, List.flatten_cons, List.mapM_append]
    refine hl.bind fun v w hv => (ih hls).bind fun vs ws hvs => ok ?_
    rw [List.flatten_cons, hv, hvs]

end Together

/-- Computations come to equal values if they can come to the same values. -/
theorem together_eq_iff {β : Type} {x y : Except Error β} :
    Together x y Eq ↔ ∀ v, x = .ok v ↔ y = .ok v := by
  cases x with
  | ok v =>
    cases y with
    | ok w => exact ⟨fun h _ => h ▸ Iff.rfl, fun h => (Except.ok.inj ((h v).1 rfl)).symm⟩
    | error e => exact ⟨fun h => absurd h id, fun h => nomatch (h v).1 rfl⟩
  | error e =>
    cases y with
    | ok w => exact ⟨fun h => absurd h id, fun h => nomatch (h w).2 rfl⟩
    | error e' => exact ⟨fun _ _ => ⟨nofun, nofun⟩, fun _ => trivial⟩

theorem mapM_eq_ok_iff {β γ : Type} {f : β → Except Error γ} {l : List β} {m : List γ} :
    l.mapM f = .ok m ↔ List.Forall₂ (fun b c => f b = .ok c) l m := by
  induction l generalizing m with
  | nil => simp [pure, Except.pure, eq_comm]
  | cons b l ih =>
    rw [List.mapM_cons, bind_eq_ok_iff, List.forall₂_cons_left_iff]
    simp only [bind_eq_ok_iff, ih]
    constructor
    · rintro ⟨c, hc, m', hm', h⟩
      cases h
      exact ⟨c, m', hc, hm', rfl⟩
    · rintro ⟨c, m', hc, hm', rfl⟩
      exact ⟨c, hc, m', hm', rfl⟩

end RowAlgebra

import Mathlib.Data.Set.Insert
import RowAlgebra.Expr.Build

/-!
# Nodes that exist

An expression is never alone: its inputs exist as nodes of their own, and so do the nodes that other
expressions are made of. A `Population` is a set of nodes as the builder leaves it: numbers tell the
nodes apart and lie below the next free one, inputs belong to it, and every operator admits its
inputs.

`Build.Yields` says what a computation that builds nodes comes to on a population: it fails in one
way, or it delivers a node of a larger population. Computations are put together by `Yields.bind`,
and `ofUnary_yields`, `transposed_yields`, `withInput_yields` and their binary counterparts are the
steps. Exchanging an input keeps the operator, whether or not a new node is made; this needs numbers
to be identities.
-/

namespace RowAlgebra

/-! ## Types of keys -/

namespace KeyType

variable {s t u : KeyType}

theorem base_of_not_isDerived (h : t.isDerived = false) : t.base = t := by
  cases t <;> first | rfl | cases h

/-- A type, or one that is derived from it. -/
def Specializes (s t : KeyType) : Prop :=
  s = t ∨ t = int ∧ s.isInt = true

namespace Specializes

theorem refl (t : KeyType) : t.Specializes t :=
  .inl rfl

theorem isInt_eq (h : s.Specializes t) : s.isInt = t.isInt := by
  rcases h with rfl | ⟨rfl, h⟩
  · rfl
  · exact h

theorem base_eq (h : s.Specializes t) : s.base = t.base := by
  rcases h with rfl | ⟨rfl, h⟩
  · rfl
  · cases s with
    | int | derived => rfl
    | text | bool | float => cases h

theorem int_of_isInt (h : s.isInt = true) : s.Specializes .int :=
  .inr ⟨rfl, h⟩

theorem trans (h : s.Specializes t) (h' : t.Specializes u) : s.Specializes u := by
  rcases h' with rfl | ⟨rfl, ht⟩
  · exact h
  · exact int_of_isInt (h.isInt_eq.trans ht)

/-- Only a derived type is not the one that it stands in for. -/
theorem eq_of_not_isDerived (h : s.Specializes t) (hs : s.isDerived = false) : s = t := by
  rcases h with rfl | ⟨rfl, h⟩
  · rfl
  · cases s with
    | int => rfl
    | derived c => cases hs
    | text | bool | float => cases h

end Specializes

/-- The integer type itself is the only one that is not derived. -/
theorem eq_int (h : t.isInt = true) (ht : t.isDerived = false) : t = .int :=
  (Specializes.int_of_isInt h).eq_of_not_isDerived ht

end KeyType

/-! ## Schemas up to their tags -/

/-- Agreement of two schemas on everything but the tag. -/
structure Schema.Alike (s t : Schema) : Prop where
  rows : s.rows = t.rows
  columns : s.columns = t.columns
  keyType : s.keyType = t.keyType

namespace Schema.Alike

theorem refl (s : Schema) : Alike s s :=
  ⟨rfl, rfl, rfl⟩

theorem symm {s t : Schema} (h : Alike s t) : Alike t s :=
  ⟨h.rows.symm, h.columns.symm, h.keyType.symm⟩

theorem trans {s t u : Schema} (h : Alike s t) (h' : Alike t u) : Alike s u :=
  ⟨h.rows.trans h'.rows, h.columns.trans h'.columns, h.keyType.trans h'.keyType⟩

theorem shape {s t : Schema} (h : Alike s t) : s.shape = t.shape := by
  unfold Schema.shape
  rw [h.rows, h.columns]

variable {α : Type}

theorem unary {s t : Schema} (h : Alike s t) (op : UnaryOp α) :
    Alike (op.schema s) (op.schema t) := by
  obtain ⟨h₁, h₂, h₃⟩ := h
  cases op <;> constructor <;> simp only [UnaryOp.schema, h₁, h₂, h₃]

theorem binary {l l' r r' : Schema} (hl : Alike l l') (hr : Alike r r') (op : BinaryOp) :
    Alike (op.schema l r) (op.schema l' r') := by
  obtain ⟨h₁, h₂, h₃⟩ := hl
  obtain ⟨h₄, h₅, h₆⟩ := hr
  cases op <;> constructor <;> simp only [BinaryOp.schema, h₁, h₂, h₃, h₄, h₅]

end Schema.Alike

/-- Agreement of two schemas on everything but the tag, where integer keys of the second one may be
of a class of their own in the first one. -/
structure Schema.Specializes (s t : Schema) : Prop where
  rows : s.rows = t.rows
  columns : s.columns = t.columns
  keyType : s.keyType.Specializes t.keyType

theorem Schema.Alike.specializes {s t : Schema} (h : Alike s t) : s.Specializes t :=
  ⟨h.rows, h.columns, .inl h.keyType⟩

namespace Schema.Specializes

theorem trans {s t u : Schema} (h : Specializes s t) (h' : Specializes t u) : Specializes s u :=
  ⟨h.rows.trans h'.rows, h.columns.trans h'.columns, h.keyType.trans h'.keyType⟩

theorem alike {s t : Schema} (h : Specializes s t) (hk : s.keyType = t.keyType) : Alike s t :=
  ⟨h.rows, h.columns, hk⟩

theorem shape {s t : Schema} (h : Specializes s t) : s.shape = t.shape := by
  unfold Schema.shape
  rw [h.rows, h.columns]

variable {α : Type}

/-- What an operator asks of its input holds of derived keys, too. -/
theorem admits_unary {s t : Schema} (h : Specializes s t) {op : UnaryOp α}
    (ht : op.admits t = .ok ()) : op.admits s = .ok () := by
  cases op with
  | transpose =>
    have hint : t.keyType.isInt = true := by
      by_contra hk
      simp [UnaryOp.admits, Build.require, hk] at ht
    rw [UnaryOp.admits, Build.require, if_pos (h.keyType.isInt_eq.trans hint)]
  | rowRange | leftMultiply | rightMultiply =>
    simpa only [UnaryOp.admits, h.rows, h.columns, h.keyType.isInt_eq, h.shape] using ht
  | transposeAnyKey | selfGramian | scalar | mapBlock => rfl

/-- What an operator asks of its inputs holds of derived keys, too, as long as element-wise operands
have one type of keys. -/
theorem admits_binary {l l' r r' : Schema} (hl : Specializes l l') (hr : Specializes r r')
    {op : BinaryOp} (h : op.admits l' r' = .ok ())
    (hk : ∀ o, op = .elementwise o → l.keyType = r.keyType) : op.admits l r = .ok () := by
  cases op with
  | elementwise o =>
    have hkeys : (l.keyType == r.keyType) = true := beq_iff_eq.2 (hk o rfl)
    have hshapes : Build.require true .elementwiseKeys = .ok () := rfl
    simp only [BinaryOp.admits, hl.shape, hr.shape, hkeys, hshapes] at h ⊢
    cases hx : l'.shape with
    | error error => simp [hx, bind, Except.bind] at h
    | ok left =>
      cases hy : r'.shape with
      | error error => simp [hx, hy, bind, Except.bind] at h
      | ok right =>
        by_cases hsame : left = right
        · simp [hsame, Build.require, bind, Except.bind]
        · simp [hx, hy, hsame, Build.require, bind, Except.bind] at h
  | _ => simpa only [BinaryOp.admits, hl.rows, hl.columns, hl.shape, hr.rows, hr.columns, hr.shape,
      hr.keyType.isInt_eq] using h

theorem unary {s t : Schema} (h : Specializes s t) (op : UnaryOp α) :
    Specializes (op.schema s) (op.schema t) := by
  obtain ⟨h₁, h₂, h₃⟩ := h
  cases op <;> constructor <;>
    simp only [UnaryOp.schema, h₁, h₂, h₃, KeyType.Specializes.refl]

theorem binary {l l' r r' : Schema} (hl : Specializes l l') (hr : Specializes r r')
    (op : BinaryOp) : Specializes (op.schema l r) (op.schema l' r') := by
  obtain ⟨h₁, h₂, h₃⟩ := hl
  obtain ⟨h₄, h₅, h₆⟩ := hr
  cases op <;> constructor <;>
    simp only [BinaryOp.schema, h₁, h₂, h₃, h₄, h₅, KeyType.Specializes.refl]

end Schema.Specializes

/-! ## Populations -/

namespace Expr

variable {α : Type}

/-- Whether the operator of a node admits its inputs. -/
def Admitted : Expr α → Prop
  | checkpoint _ _ | foreign _ _ => True
  | unary _ op input => op.admits input.schema = .ok ()
  | binary _ op left right => op.admits left.schema right.schema = .ok ()

theorem mem_walk_self (e : Expr α) : e ∈ e.walk := by
  cases e <;> simp [walk]

theorem walk_unary (id : NodeId) (op : UnaryOp α) (a : Expr α) :
    (unary id op a).walk = unary id op a :: a.walk := by
  rw [walk]

theorem walk_binary (id : NodeId) (op : BinaryOp) (a b : Expr α) :
    (binary id op a b).walk = binary id op a b :: (a.walk ++ b.walk) := by
  rw [walk]

theorem forall_walk_unary {P : Expr α → Prop} {i : NodeId} {op : UnaryOp α} {a : Expr α} :
    (∀ x ∈ (unary i op a).walk, P x) ↔ P (unary i op a) ∧ ∀ x ∈ a.walk, P x := by
  rw [walk_unary, List.forall_mem_cons]

theorem forall_walk_binary {P : Expr α → Prop} {i : NodeId} {op : BinaryOp} {a b : Expr α} :
    (∀ x ∈ (binary i op a b).walk, P x) ↔
      P (binary i op a b) ∧ (∀ x ∈ a.walk, P x) ∧ ∀ x ∈ b.walk, P x := by
  rw [walk_binary, List.forall_mem_cons, List.forall_mem_append]

theorem mem_walk_input (i : NodeId) (op : UnaryOp α) (a : Expr α) : a ∈ (unary i op a).walk :=
  walk_unary i op a ▸ List.mem_cons_of_mem _ (mem_walk_self a)

theorem mem_walk_left (i : NodeId) (op : BinaryOp) (a b : Expr α) : a ∈ (binary i op a b).walk :=
  walk_binary i op a b ▸ List.mem_cons_of_mem _ (List.mem_append_left _ (mem_walk_self a))

theorem mem_walk_right (i : NodeId) (op : BinaryOp) (a b : Expr α) : b ∈ (binary i op a b).walk :=
  walk_binary i op a b ▸ List.mem_cons_of_mem _ (List.mem_append_right _ (mem_walk_self b))

theorem mem_walk_trans {x y e : Expr α} (hx : x ∈ y.walk) (hy : y ∈ e.walk) : x ∈ e.walk := by
  induction e with
  | checkpoint id c =>
    obtain rfl := List.mem_singleton.1 hy
    exact hx
  | foreign id shape =>
    obtain rfl := List.mem_singleton.1 hy
    exact hx
  | unary id op a ih =>
    rw [walk_unary, List.mem_cons] at hy ⊢
    rcases hy with rfl | hy
    · rwa [walk_unary, List.mem_cons] at hx
    · exact .inr (ih hy)
  | binary id op a b iha ihb =>
    rw [walk_binary, List.mem_cons, List.mem_append] at hy ⊢
    rcases hy with rfl | hy | hy
    · rwa [walk_binary, List.mem_cons, List.mem_append] at hx
    · exact .inr (.inl (iha hy))
    · exact .inr (.inr (ihb hy))

theorem mem_walk_child {p e : Expr α} (h : e ∈ p.children) : e ∈ p.walk := by
  cases p with
  | checkpoint i c => cases h
  | foreign i shape => cases h
  | unary i op a => exact List.mem_singleton.1 h ▸ mem_walk_input i op _
  | binary i op a b =>
    have hab : e = a ∨ e = b := by simpa [children] using h
    rcases hab with rfl | rfl
    · exact mem_walk_left i op _ b
    · exact mem_walk_right i op a _

/-- Some nodes that come with their inputs come with whatever they are made of. -/
theorem walk_subset_of_closed (nodes : Set (Expr α))
    (hc : ∀ x ∈ nodes, ∀ a ∈ x.children, a ∈ nodes) {e : Expr α} (he : e ∈ nodes) :
    ∀ x ∈ e.walk, x ∈ nodes := by
  induction e with
  | checkpoint id c => simpa [walk] using he
  | foreign id shape => simpa [walk] using he
  | unary id op a ih =>
    have ha : a ∈ nodes := hc _ he a (by simp [children])
    exact forall_walk_unary.2 ⟨he, ih ha⟩
  | binary id op a b iha ihb =>
    have ha : a ∈ nodes := hc _ he a (by simp [children])
    have hb : b ∈ nodes := hc _ he b (by simp [children])
    exact forall_walk_binary.2 ⟨he, iha ha, ihb hb⟩

/-- The operators on one input that an expression is made of. -/
def unaries : Expr α → List (UnaryOp α)
  | checkpoint _ _ | foreign _ _ => []
  | unary _ op a => op :: a.unaries
  | binary _ _ a b => a.unaries ++ b.unaries

theorem unaries_subset_of_mem_walk {e x : Expr α} (h : x ∈ e.walk) : x.unaries ⊆ e.unaries := by
  induction e with
  | checkpoint i c =>
    rw [List.mem_singleton.1 h]
    exact List.Subset.refl _
  | foreign i shape =>
    rw [List.mem_singleton.1 h]
    exact List.Subset.refl _
  | unary i op a ih =>
    rcases List.mem_cons.1 (walk_unary i op a ▸ h) with rfl | h
    · exact List.Subset.refl _
    · exact List.subset_cons_of_subset op (ih h)
  | binary i op a b iha ihb =>
    rcases List.mem_cons.1 (walk_binary i op a b ▸ h) with rfl | h
    · exact List.Subset.refl _
    · rcases List.mem_append.1 h with h | h
      · exact List.subset_append_of_subset_left _ (iha h)
      · exact List.subset_append_of_subset_right _ (ihb h)

theorem mem_unaries_of_mem_walk {e a : Expr α} {i : NodeId} {op : UnaryOp α}
    (h : unary i op a ∈ e.walk) : op ∈ e.unaries :=
  unaries_subset_of_mem_walk h List.mem_cons_self

theorem size_input_lt (id : NodeId) (op : UnaryOp α) (a : Expr α) :
    a.size < (unary id op a).size :=
  Nat.lt_succ_self _

theorem size_left_lt (id : NodeId) (op : BinaryOp) (a b : Expr α) :
    a.size < (binary id op a b).size := by
  change a.size < a.size + b.size + 1
  omega

theorem size_right_lt (id : NodeId) (op : BinaryOp) (a b : Expr α) :
    b.size < (binary id op a b).size := by
  change b.size < a.size + b.size + 1
  omega

theorem size_child_lt {p a : Expr α} (h : a ∈ p.children) : a.size < p.size := by
  cases p with
  | checkpoint i c => cases h
  | foreign i shape => cases h
  | unary i op b => exact List.mem_singleton.1 h ▸ size_input_lt i op b
  | binary i op b c =>
    have hbc : a = b ∨ a = c := by simpa [children] using h
    rcases hbc with rfl | rfl
    · exact size_left_lt i op a c
    · exact size_right_lt i op b a

theorem size_le_of_mem_walk {e x : Expr α} (h : x ∈ e.walk) : x.size ≤ e.size := by
  induction e with
  | checkpoint i c => exact (List.mem_singleton.1 h) ▸ Nat.le_refl _
  | foreign i shape => exact (List.mem_singleton.1 h) ▸ Nat.le_refl _
  | unary i op a ih =>
    rcases List.mem_cons.1 (walk_unary i op a ▸ h) with rfl | h
    · exact Nat.le_refl _
    · exact (ih h).trans (size_input_lt i op a).le
  | binary i op a b iha ihb =>
    rcases List.mem_cons.1 (walk_binary i op a b ▸ h) with rfl | h
    · exact Nat.le_refl _
    · rcases List.mem_append.1 h with h | h
      · exact (iha h).trans (size_left_lt i op a b).le
      · exact (ihb h).trans (size_right_lt i op a b).le

end Expr

/-- A set of nodes whose numbers lie below `next`, as the builder leaves it. -/
structure Population {α : Type} (next : NodeId) (nodes : Set (Expr α)) : Prop where
  numbered : ∀ e ∈ nodes, e.id < next
  identified : ∀ a ∈ nodes, ∀ b ∈ nodes, a.id = b.id → a = b
  closed : ∀ e ∈ nodes, ∀ a ∈ e.children, a ∈ nodes
  admitted : ∀ e ∈ nodes, e.Admitted

namespace Population

variable {α : Type} {next next' : NodeId} {nodes : Set (Expr α)}

theorem empty (next : NodeId) : Population next (∅ : Set (Expr α)) :=
  ⟨nofun, nofun, nofun, nofun⟩

theorem mono (h : Population next nodes) (hn : next ≤ next') : Population next' nodes :=
  ⟨fun e he => Nat.lt_of_lt_of_le (h.numbered e he) hn, h.identified, h.closed, h.admitted⟩

/-- A node with the next free number joins its inputs. -/
theorem insert (h : Population next nodes) {e : Expr α} (hid : e.id = next)
    (hc : ∀ a ∈ e.children, a ∈ nodes) (ha : e.Admitted) :
    Population (next + 1) (insert e nodes) := by
  refine ⟨?_, ?_, ?_, ?_⟩
  · rintro x (rfl | hx)
    · exact hid ▸ Nat.lt_succ_self _
    · exact Nat.lt_succ_of_lt (h.numbered x hx)
  · rintro x (rfl | hx) y (rfl | hy) hxy
    · rfl
    · exact absurd (hxy.symm.trans hid) (Nat.ne_of_lt (h.numbered y hy))
    · exact absurd (hxy.trans hid) (Nat.ne_of_lt (h.numbered x hx))
    · exact h.identified x hx y hy hxy
  · rintro x (rfl | hx) a hax
    · exact Set.mem_insert_of_mem _ (hc a hax)
    · exact Set.mem_insert_of_mem _ (h.closed x hx a hax)
  · rintro x (rfl | hx)
    · exact ha
    · exact h.admitted x hx

theorem input (h : Population next nodes) {id : NodeId} {op : UnaryOp α} {a : Expr α}
    (he : .unary id op a ∈ nodes) : a ∈ nodes :=
  h.closed _ he a (by simp [Expr.children])

theorem left (h : Population next nodes) {id : NodeId} {op : BinaryOp} {a b : Expr α}
    (he : .binary id op a b ∈ nodes) : a ∈ nodes :=
  h.closed _ he a (by simp [Expr.children])

theorem right (h : Population next nodes) {id : NodeId} {op : BinaryOp} {a b : Expr α}
    (he : .binary id op a b ∈ nodes) : b ∈ nodes :=
  h.closed _ he b (by simp [Expr.children])

/-- Whatever an expression of the population is made of belongs to it, too. -/
theorem walk_subset (h : Population next nodes) {e : Expr α} (he : e ∈ nodes) :
    ∀ x ∈ e.walk, x ∈ nodes :=
  Expr.walk_subset_of_closed nodes h.closed he

end Population

/-- A leaf without rows, for which its schema stands. -/
def Checkpoint.ofShape {α : Type} (nrow ncol : Int) (keyType : KeyType) (tag : Tag) :
    Checkpoint α :=
  ⟨⟨⟨[[]], keyType⟩, ncol⟩, 0, nrow, ncol, .unknown, .none, tag, keyType⟩

/-! ## Computations that build nodes -/

namespace Build

variable {α β γ : Type}

theorem bind_ok {m : Build β} {f : β → Build γ} {next next' : NodeId} {x : β}
    (h : m next = .ok (x, next')) : (m >>= f) next = f x next' := by
  change (m next >>= fun p => f p.1 p.2) = _
  rw [h]
  rfl

theorem bind_error {m : Build β} {f : β → Build γ} {next : NodeId} {error : Error}
    (h : m next = .error error) : (m >>= f) next = .error error := by
  change (m next >>= fun p => f p.1 p.2) = _
  rw [h]
  rfl

/-- A check takes no number. -/
theorem lift_bind (x : Except Error β) (f : β → Build γ) (next : NodeId) :
    ((liftM x : Build β) >>= f) next = x >>= fun y => f y next := by
  cases x <;> rfl

theorem bind_eq_ok {m : Build β} {f : β → Build γ} {next next' : NodeId} {y : γ}
    (h : (m >>= f) next = .ok (y, next')) :
    ∃ x n, m next = .ok (x, n) ∧ f x n = .ok (y, next') := by
  cases hm : m next with
  | error error =>
    rw [bind_error hm] at h
    cases h
  | ok p => exact ⟨p.1, p.2, rfl, (bind_ok hm).symm.trans h⟩

/-- A computation that fails with an error of the kind `Bad`, or delivers a node of the kind `Good`
in a larger population. -/
def Yields (m : Build (Expr α)) (next : NodeId) (nodes : Set (Expr α)) (Bad : Error → Prop)
    (Good : Expr α → Prop) : Prop :=
  (∃ error, m next = .error error ∧ Bad error) ∨
    ∃ e next' nodes', m next = .ok (e, next') ∧ next ≤ next' ∧ nodes ⊆ nodes' ∧
      Population next' nodes' ∧ e ∈ nodes' ∧ Good e

namespace Yields

variable {m : Build (Expr α)} {f : Expr α → Build (Expr α)} {next : NodeId}
  {nodes : Set (Expr α)} {Bad Bad' : Error → Prop} {Good Good' : Expr α → Prop}

theorem imp (h : Yields m next nodes Bad Good) (hg : ∀ e, Good e → Good' e) :
    Yields m next nodes Bad Good' := by
  rcases h with ⟨error, hm, h⟩ | ⟨e, next', nodes', hm, hn, hs, hp, he, h⟩
  · exact .inl ⟨error, hm, h⟩
  · exact .inr ⟨e, next', nodes', hm, hn, hs, hp, he, hg e h⟩

theorem mapBad (h : Yields m next nodes Bad' Good) (hb : ∀ error, Bad' error → Bad error) :
    Yields m next nodes Bad Good := by
  rcases h with ⟨error, hm, h⟩ | h
  · exact .inl ⟨error, hm, hb error h⟩
  · exact .inr h

/-- The second computation goes on where the first one has left the population. -/
theorem bind (h : Yields m next nodes Bad' Good') (hb : ∀ error, Bad' error → Bad error)
    (hf : ∀ e next' nodes', nodes ⊆ nodes' → Population next' nodes' → e ∈ nodes' → Good' e →
      Yields (f e) next' nodes' Bad Good) :
    Yields (m >>= f) next nodes Bad Good := by
  rcases h with ⟨error, hm, h⟩ | ⟨e, next', nodes', hm, hn, hs, hp, he, h⟩
  · exact .inl ⟨error, bind_error hm, hb error h⟩
  · rcases hf e next' nodes' hs hp he h with ⟨error, hm', h'⟩ | ⟨r, n, N, hm', hn', hs', hp', hr, h'⟩
    · exact .inl ⟨error, (bind_ok hm).trans hm', h'⟩
    · exact .inr ⟨r, n, N, (bind_ok hm).trans hm', hn.trans hn', hs.trans hs', hp', hr, h'⟩

theorem pure (hp : Population next nodes) {e : Expr α} (he : e ∈ nodes) (hg : Good e) :
    Yields (pure e) next nodes Bad Good :=
  .inr ⟨e, next, nodes, rfl, Nat.le_refl _, Set.Subset.rfl, hp, he, hg⟩

theorem throw {error : Error} (hb : Bad error) :
    Yields (throw error : Build (Expr α)) next nodes Bad Good :=
  .inl ⟨error, rfl, hb⟩

end Yields

end Build

/-! ## Building single nodes -/

namespace Expr

variable {α : Type} {next : NodeId} {nodes : Set (Expr α)}

theorem ofUnary_of_admits {op : UnaryOp α} {a : Expr α} (h : op.admits a.schema = .ok ())
    (next : NodeId) : ofUnary op a next = .ok (unary next op a, next + 1) := by
  refine (Build.lift_bind _ _ next).trans ?_
  rw [h]
  rfl

theorem ofUnary_of_refused {op : UnaryOp α} {a : Expr α} {error : Error}
    (h : op.admits a.schema = .error error) (next : NodeId) :
    ofUnary op a next = .error error := by
  refine (Build.lift_bind _ _ next).trans ?_
  rw [h]
  rfl

theorem ofUnary_eq_ok {op : UnaryOp α} {a e : Expr α} {next' : NodeId}
    (h : ofUnary op a next = .ok (e, next')) :
    op.admits a.schema = .ok () ∧ e = unary next op a ∧ next' = next + 1 := by
  cases hadm : op.admits a.schema with
  | error error =>
    rw [ofUnary_of_refused hadm] at h
    cases h
  | ok _ =>
    rw [ofUnary_of_admits hadm] at h
    cases h
    exact ⟨rfl, rfl, rfl⟩

theorem ofBinary_of_admits {op : BinaryOp} {a b : Expr α}
    (h : op.admits a.schema b.schema = .ok ()) (next : NodeId) :
    ofBinary op a b next = .ok (binary next op a b, next + 1) := by
  refine (Build.lift_bind _ _ next).trans ?_
  rw [h]
  rfl

theorem ofBinary_of_refused {op : BinaryOp} {a b : Expr α} {error : Error}
    (h : op.admits a.schema b.schema = .error error) (next : NodeId) :
    ofBinary op a b next = .error error := by
  refine (Build.lift_bind _ _ next).trans ?_
  rw [h]
  rfl

theorem ofBinary_eq_ok {op : BinaryOp} {a b e : Expr α} {next' : NodeId}
    (h : ofBinary op a b next = .ok (e, next')) :
    op.admits a.schema b.schema = .ok () ∧ e = binary next op a b ∧ next' = next + 1 := by
  cases hadm : op.admits a.schema b.schema with
  | error error =>
    rw [ofBinary_of_refused hadm] at h
    cases h
  | ok _ =>
    rw [ofBinary_of_admits hadm] at h
    cases h
    exact ⟨rfl, rfl, rfl⟩

section Steps

variable {Bad : Error → Prop} (hp : Population next nodes)

include hp in
theorem ofUnary_yields {op : UnaryOp α} {a : Expr α} (ha : a ∈ nodes)
    (h : op.admits a.schema = .ok ()) :
    (ofUnary op a).Yields next nodes Bad fun e => ∃ i, e = unary i op a := by
  refine .inr ⟨_, _, insert (unary next op a) nodes, ofUnary_of_admits h next, Nat.le_succ _,
    Set.subset_insert _ _, hp.insert rfl ?_ h, Set.mem_insert _ _, next, rfl⟩
  simpa [children] using ha

include hp in
theorem ofBinary_yields {op : BinaryOp} {a b : Expr α} (ha : a ∈ nodes) (hb : b ∈ nodes)
    (h : op.admits a.schema b.schema = .ok ()) :
    (ofBinary op a b).Yields next nodes Bad fun e => ∃ i, e = binary i op a b := by
  refine .inr ⟨_, _, insert (binary next op a b) nodes, ofBinary_of_admits h next, Nat.le_succ _,
    Set.subset_insert _ _, hp.insert rfl ?_ h, Set.mem_insert _ _, next, rfl⟩
  simpa [children] using ⟨ha, hb⟩

end Steps

/-- The transposition that fits the keys of a matrix. -/
def transposition (t : KeyType) : UnaryOp α :=
  if t.isInt then .transpose else .transposeAnyKey

theorem transposition_of_isInt {t : KeyType} (h : t.isInt = true) :
    (transposition t : UnaryOp α) = .transpose :=
  if_pos h

theorem admits_transposition (s : Schema) :
    (transposition s.keyType : UnaryOp α).admits s = .ok () := by
  unfold transposition
  split
  · next h => simp [UnaryOp.admits, Build.require, h]
  · rfl

section Steps

variable {Bad : Error → Prop} (hp : Population next nodes)

include hp in
theorem transposed_yields {a : Expr α} (ha : a ∈ nodes) :
    a.transposed.Yields next nodes Bad fun e => ∃ i, e = unary i (transposition a.keyType) a :=
  ofUnary_yields hp ha (admits_transposition a.schema)

include hp in
/-- A node with another input keeps its operator, also if it is the old node. -/
theorem withInput_yields {id : NodeId} {op : UnaryOp α} {a new : Expr α}
    (he : unary id op a ∈ nodes) (hn : new ∈ nodes) (h : new.schema.Specializes a.schema) :
    (withInput id op a new).Yields next nodes Bad fun e => ∃ i, e = unary i op new := by
  have hadm : op.admits a.schema = .ok () := hp.admitted _ he
  unfold withInput
  split
  · next hid =>
    obtain rfl := hp.identified _ hn _ (hp.input he) hid
    exact .pure hp he ⟨id, rfl⟩
  · split
    · -- the keys are still integers, so the transposition that is picked anew is the same
      have hint : a.keyType.isInt = true := by
        by_contra hk
        simp [UnaryOp.admits, Build.require, Expr.keyType] at hadm hk
        simp [hk] at hadm
      have hk : (transposition new.keyType : UnaryOp α) = .transpose :=
        transposition_of_isInt (h.keyType.isInt_eq.trans hint)
      exact hk ▸ transposed_yields hp hn
    · exact ofUnary_yields hp hn (h.admits_unary hadm)

include hp in
theorem withInputs_yields {id : NodeId} {op : BinaryOp} {a b newA newB : Expr α}
    (he : binary id op a b ∈ nodes) (ha : newA ∈ nodes) (hb : newB ∈ nodes)
    (hsa : newA.schema.Specializes a.schema) (hsb : newB.schema.Specializes b.schema)
    (hk : ∀ o, op = .elementwise o → newA.keyType = newB.keyType) :
    (withInputs id op a b newA newB).Yields next nodes Bad fun e =>
      ∃ i, e = binary i op newA newB := by
  have hadm : op.admits a.schema b.schema = .ok () := hp.admitted _ he
  unfold withInputs
  split
  · next hid =>
    obtain rfl := hp.identified _ ha _ (hp.left he) hid.1
    obtain rfl := hp.identified _ hb _ (hp.right he) hid.2
    exact .pure hp he ⟨id, rfl⟩
  · exact ofBinary_yields hp ha hb (hsa.admits_binary hsb hadm hk)

end Steps

end Expr

end RowAlgebra

import RowAlgebra.Proofs.Expr.Uses
import RowAlgebra.Proofs.Plan.Stranded
import RowAlgebra.Proofs.Plan.Tags
import RowAlgebra.Proofs.Plan.Twins

/-!
# Equal expressions can be exchanged

The algebra and the planner read little of an operand: its schema, and what it equals. So equal
expressions are as good as each other. An operator that holds no undefined number makes equal nodes
of them, or refuses both (`Use.agree`), and the planner makes equal plans of them, or refuses both
for the same kind of reason (`Equal.optimize_agree`). That the planner compares operands itself is no
obstacle, since equality is symmetric and transitive.
-/

namespace RowAlgebra

/-! ## Transposed matrices -/

namespace Dense

variable {α : Type} [Cell α]

theorem same_grids_iff {r c : Nat} {g h : Grid α r c} : (Dense.mk r c g).same ⟨r, c, h⟩ = true ↔
    ∀ (i : Nat) (hi : i < r) (j : Nat) (hj : j < c), Cell.same g[i][j] h[i][j] = true := by
  constructor
  · intro hsame i hi j hj
    exact cells_of_same hsame hi hj hi hj
  · intro hcells
    refine same_iff.2 ⟨rfl, rfl, List.forall₂_iff_get.2 ⟨by simp [rows], ?_⟩⟩
    intro i hi hi'
    refine List.forall₂_iff_get.2 ⟨by simp [rows], ?_⟩
    intro j hj hj'
    simp only [rows, List.length_map, Vector.length_toList] at hi
    simp only [rows, List.get_eq_getElem, List.getElem_map, Vector.getElem_toList,
      Vector.length_toList] at hj ⊢
    exact hcells i hi j hj

theorem same_transposed {m n : Dense α} (h : m.same n = true) :
    m.transposed.same n.transposed = true := by
  obtain ⟨r, c, g⟩ := m
  obtain ⟨r', c', g'⟩ := n
  obtain ⟨rfl, rfl, -⟩ := same_iff.1 h
  rw [same_grids_iff] at h
  refine same_grids_iff.2 fun j hj i hi => ?_
  simpa using h i hi j hj

end Dense

variable {α : Type} [Cell α]

/-- Operators that compare as equal treat types of keys alike. -/
theorem UnaryOp.cleanKeyType_of_same {op op' : UnaryOp α} (h : op.same op' = true) (t : KeyType) :
    op.cleanKeyType t = op'.cleanKeyType t := by
  cases op <;> cases op' <;> first | rfl | cases h

namespace Expr

/-! ## Both passes -/

theorem CleanForm.equal {e m e' m' : Expr α} (h : CleanForm e m) (he : Equal e e')
    (h' : CleanForm e' m') : Equal m m' := by
  induction h generalizing e' m' with
  | checkpoint =>
    cases he with
    | checkpoint => cases h' with
      | checkpoint => exact .checkpoint _ _ _
  | double i j ha ih =>
    cases he with
    | @unary _ _ _ op _ _ hop hx => cases hx with
      | @unary _ _ _ op' _ _ hop' hx =>
        cases op <;> simp only [UnaryOp.same, Bool.false_eq_true] at hop
        cases op' <;> simp only [UnaryOp.same, Bool.false_eq_true] at hop'
        cases h' with
        | double _ _ ha' => exact ih hx ha'
        | unary _ _ _ ht => exact absurd rfl (ne_true_of_eq_false (ht rfl))
  | @unary i j op a m hop ht ha ih =>
    cases he with
    | @unary _ _ _ op' _ _ hsame hx => cases h' with
      | double =>
        cases op <;> simp only [UnaryOp.same, Bool.false_eq_true] at hsame
        exact absurd rfl (ne_true_of_eq_false (hx.kinds_eq.1.symm.trans (ht rfl)))
      | unary _ _ _ _ ha' => exact .unary hsame (ih hx ha')
  | binary i j op ha hb iha ihb =>
    cases he with
    | binary _ _ _ hx hy => cases h' with
      | binary _ _ _ ha' hb' => exact .binary _ _ op (iha hx ha') (ihb hy hb')

theorem Equal.exists_transpose {i : NodeId} {a f : Expr α}
    (h : Equal (Expr.unary i .transpose a) f) :
    ∃ j b, f = Expr.unary j .transpose b ∧ Equal a b := by
  cases h with
  | @unary _ j _ op _ b hop hb =>
    cases op <;> simp only [UnaryOp.same, Bool.false_eq_true] at hop
    exact ⟨j, b, rfl, hb⟩

theorem Equal.exists_transposed {i : NodeId} {op : UnaryOp α} {a f : Expr α}
    (h : Equal (Expr.unary i op a) f) (hop : op.transposes = true) :
    ∃ j op' b, f = Expr.unary j op' b ∧ op'.transposes = true ∧ Equal a b := by
  cases h with
  | @unary _ j _ op' _ b hsame hb =>
    refine ⟨j, op', b, rfl, ?_, hb⟩
    cases op <;> cases op' <;> simp_all [UnaryOp.same, UnaryOp.transposes]

/-! ### Types of keys -/

section KeyTypes

variable {e f : Expr α} (hleaves : ∀ i c d, Expr.checkpoint i c ∈ e.walk →
  Expr.checkpoint i d ∈ f.walk → c.keyType = d.keyType)

include hleaves

theorem Equal.keyType_eq (h : Equal e f) : e.keyType = f.keyType := by
  induction h with
  | checkpoint i c d => exact hleaves i c d (mem_walk_self _) (mem_walk_self _)
  | foreign => rfl
  | @unary i j op op' a b hop ha ih =>
    simp only [leaf_mem_unary] at hleaves
    rw [keyType, keyType, schema, schema, UnaryOp.keyType_schema, UnaryOp.keyType_schema,
      UnaryOp.cleanKeyType_of_same hop]
    exact congrArg op'.cleanKeyType (ih hleaves)
  | @binary i j op a a' b b' ha hb iha ihb =>
    have hleft := iha fun i c d hc hd =>
      hleaves i c d (leaf_mem_binary.2 (.inl hc)) (leaf_mem_binary.2 (.inl hd))
    rcases op.keyType_schema with hop | hop <;> simp only [keyType, schema, hop]
    exact hleft

/-- The second pass comes to the same type of keys for equal expressions over the same leaves, or
refuses both for one reason. -/
theorem Equal.cleanKeyType_eq (h : Equal e f) : e.cleanKeyType = f.cleanKeyType := by
  induction e using induction_on_cleanup generalizing f with
  | checkpoint i c =>
    cases h with
    | checkpoint _ _ d =>
      exact congrArg Except.ok (hleaves i c d (mem_walk_self _) (mem_walk_self _))
  | foreign i shape =>
    cases h with
    | foreign => rfl
  | anyKey i a =>
    cases h with
    | @unary _ j _ op' _ b hop ha =>
      cases op' <;> simp only [UnaryOp.same, Bool.false_eq_true] at hop
      simp only [leaf_mem_unary] at hleaves
      exact congrArg (fun t => Except.error (Error.survivingTransposition t)) (ha.keyType_eq hleaves)
  | double i j a ih =>
    obtain ⟨i', x, rfl, hx⟩ := h.exists_transpose
    obtain ⟨j', b, rfl, hb⟩ := hx.exists_transpose
    simp only [leaf_mem_unary] at hleaves
    rw [cleanKeyType_double, cleanKeyType_double, ih hleaves hb]
  | unary i op a hop ht ih =>
    cases h with
    | @unary _ j _ op' _ b hsame ha =>
      have hop' : op' ≠ .transposeAnyKey := by
        rintro rfl
        cases op <;> simp only [UnaryOp.same, Bool.false_eq_true] at hsame
        exact hop rfl
      have ht' : op' = .transpose → b.isTransposed = false := by
        rintro rfl
        cases op <;> simp only [UnaryOp.same, Bool.false_eq_true] at hsame
        exact ha.kinds_eq.1 ▸ ht rfl
      simp only [leaf_mem_unary] at hleaves
      rw [cleanKeyType_unary i hop ht, cleanKeyType_unary j hop' ht', ih hleaves ha]
      exact congrArg (b.cleanKeyType >>= ·) (funext fun t =>
        congrArg Except.ok (UnaryOp.cleanKeyType_of_same hsame t))
  | binary i op a b iha ihb =>
    cases h with
    | binary _ _ _ ha hb =>
      have hleft := iha (fun i c d hc hd =>
        hleaves i c d (leaf_mem_binary.2 (.inl hc)) (leaf_mem_binary.2 (.inl hd))) ha
      have hright := ihb (fun i c d hc hd =>
        hleaves i c d (leaf_mem_binary.2 (.inr hc)) (leaf_mem_binary.2 (.inr hd))) hb
      rw [cleanKeyType_binary, cleanKeyType_binary, hleft, hright]

end KeyTypes

/-! ### Rule by rule -/

section Passes

variable [LawfulSame α] {next : NodeId} {nodes : Set (Expr α)}

theorem Equal.isGramian_eq {a a' b b' : Expr α} (ha : Equal a a') (hb : Equal b b') :
    a.isGramian b = a'.isGramian b' := by
  cases ha with
  | @unary i j op op' x x' hop hx =>
    have htransposes : op.transposes = op'.transposes := by
      cases op <;> cases op' <;> first | rfl | cases hop
    rw [isGramian, isGramian, hx.congr hb, htransposes]
  | _ => rfl

/-- The rule that fits an expression fits all that are equal to it. -/
theorem NormalForm.equal (hp : Population next nodes) {e m e' m' : Expr α} (h : NormalForm e m)
    (he : Equal e e') (hmem : e ∈ nodes) (hmem' : e' ∈ nodes) (h' : NormalForm e' m') :
    Equal m m' := by
  induction h generalizing e' m' with
  | checkpoint =>
    cases he with
    | checkpoint => cases h' with
      | checkpoint => exact .checkpoint _ _ _
  | gramian i j k hop hs ha iha =>
    cases he with
    | binary _ _ _ hx hy =>
      obtain ⟨l, op', b, rfl, hop', hx⟩ := hx.exists_transposed hop
      obtain ⟨k', a', rfl, ha'⟩ := h'.of_gramian hop' (hx.congr hy ▸ hs)
      exact .unary rfl (iha hx (hp.input (hp.left hmem)) (hp.input (hp.left hmem')) ha')
  | timesTransposed i j k hg ha hb iha ihb =>
    cases he with
    | binary _ _ _ hx hy =>
      rw [hx.isGramian_eq hy] at hg
      obtain ⟨l, y, rfl, hinput⟩ := hy.exists_transpose
      obtain ⟨k', a', b', rfl, ha', hb'⟩ := h'.of_timesTransposed hg
      exact .binary k k' .matMulTransB (iha hx (hp.left hmem) (hp.left hmem') ha')
        (ihb hinput (hp.input (hp.right hmem)) (hp.input (hp.right hmem')) hb')
  | transposedTimes i j k hop hs ht ha hb iha ihb =>
    cases he with
    | binary _ _ _ hx hy =>
      obtain ⟨l, op', x, rfl, hop', hx⟩ := hx.exists_transposed hop
      obtain ⟨k', a', b', rfl, ha', hb'⟩ :=
        h'.of_transposedTimes hop' (hx.congr hy ▸ hs) (hy.kinds_eq.1 ▸ ht)
      exact .binary k k' .matMulTransA
        (iha hx (hp.input (hp.left hmem)) (hp.input (hp.left hmem')) ha')
        (ihb hy (hp.right hmem) (hp.right hmem') hb')
  | @times i j k a a' b b' hl ht ha hb iha ihb =>
    cases he with
    | @binary _ _ _ _ x _ y hx hy =>
      obtain ⟨j', k', a'', b'', rfl, ha', hb'⟩ :=
        h'.of_times (hx.kinds_eq.2.2 ▸ hl) (hy.kinds_eq.1 ▸ ht)
      have hkey : b.keyType = y.keyType :=
        congrArg Schema.keyType (hy.schema_eq hp (hp.right hmem) (hp.right hmem'))
      have htransposition : (transposition b.keyType : UnaryOp α).same
          (transposition y.keyType) = true := by
        rw [hkey, transposition]
        split <;> rfl
      exact .binary k k' .matMulTransB (iha hx (hp.left hmem) (hp.left hmem') ha')
        (.unary htransposition (ihb hy (hp.right hmem) (hp.right hmem') hb'))
  | leftMultiply i j k l m ha iha =>
    cases he with
    | @unary _ _ _ op' _ _ hsame hx =>
      cases op' <;> simp only [UnaryOp.same, Bool.false_eq_true] at hsame
      cases h' with
      | leftMultiply _ j' k' l' m' ha' =>
        exact .unary rfl (.unary (Dense.same_transposed hsame)
          (.unary rfl (iha hx (hp.input hmem) (hp.input hmem') ha')))
      | unary _ _ hop => exact absurd rfl (hop _)
  | @unary i j op a a' hop ha iha =>
    cases he with
    | unary hsame hx => cases h' with
      | leftMultiply _ _ _ _ m =>
        cases op <;> simp only [UnaryOp.same, Bool.false_eq_true] at hsame
        exact absurd rfl (hop _)
      | unary _ j' _ ha' => exact .unary hsame (iha hx (hp.input hmem) (hp.input hmem') ha')
  | @binary i j op a a' b b' hop ha hb iha ihb =>
    cases he with
    | binary _ _ _ hx hy => cases h' with
      | binary _ j' _ ha' hb' =>
        exact .binary j j' op (iha hx (hp.left hmem) (hp.left hmem') ha')
          (ihb hy (hp.right hmem) (hp.right hmem') hb')
      | _ => exact absurd rfl hop

end Passes

/-! ## Plans -/

section Optimizer

variable [LawfulSame α] {next next' : NodeId} {nodes : Set (Expr α)}

/-- **Equal expressions have equal plans**, or none for the same kind of reason. -/
theorem Equal.optimize_agree (hp : Population next nodes) (hp' : Population next' nodes)
    {e f : Expr α} (h : Equal e f) (he : e ∈ nodes) (hf : f ∈ nodes) :
    Agree (e.optimize next) (f.optimize next') := by
  have hforeign := h.hasForeign_eq
  have hkeys {m m' : Expr α} (hm : e.Normalized m) (hm' : f.Normalized m') :
      m.cleanKeyType = m'.cleanKeyType := by
    refine (hm.normalForm.equal hp h he hf hm'.normalForm).cleanKeyType_eq fun i c d hc hd => ?_
    have hc := hp.walk_subset he _ (hm.normalForm.leaf_mem hc)
    have hd := hp.walk_subset hf _ (hm'.normalForm.leaf_mem hd)
    exact congrArg keyType (hp.identified _ hc _ hd rfl)
  rcases optimize_yields hp he with ⟨error, ho, hbad⟩ | ⟨plan, n, _, ho, -, -, -, -, hplan⟩ <;>
    rcases optimize_yields hp' hf with ⟨error', ho', hbad'⟩ | ⟨plan', n', _, ho', -, -, -, -, hplan'⟩ <;>
      rw [ho, ho']
  · -- both are refused, by the same pass
    rcases hbad with ⟨hk, t, rfl⟩ | ⟨m, hm, hk, -⟩ <;>
      rcases hbad' with ⟨hk', t', rfl⟩ | ⟨m', hm', hk', -⟩
    · rfl
    · exact absurd (hforeign.symm.trans hk) (ne_true_of_eq_false hm'.known)
    · exact absurd (hforeign.trans hk') (ne_true_of_eq_false hm.known)
    · exact congrArg Error.kind (Except.error.inj (hk.symm.trans ((hkeys hm hm').trans hk')))
  · obtain ⟨m', hm', hc'⟩ := hplan'
    rcases hbad with ⟨hk, -⟩ | ⟨m, hm, hk, -⟩
    · exact absurd (hforeign.symm.trans hk) (ne_true_of_eq_false hm'.known)
    · cases hk.symm.trans ((hkeys hm hm').trans hc'.keyType)
  · obtain ⟨m, hm, hc⟩ := hplan
    rcases hbad' with ⟨hk', -⟩ | ⟨m', hm', hk', -⟩
    · exact absurd (hforeign.trans hk') (ne_true_of_eq_false hm.known)
    · cases hk'.symm.trans ((hkeys hm hm').symm.trans hc.keyType)
  · obtain ⟨m, hm, hc⟩ := hplan
    obtain ⟨m', hm', hc'⟩ := hplan'
    have hmiddle := hm.normalForm.equal hp h he hf hm'.normalForm
    exact same_iff_equal.2 (hc.cleanForm.equal hmiddle hc'.cleanForm)

end Optimizer

/-! ## Sameness -/

/-- **Equal expressions are as good as each other.** Equality is symmetric and transitive, and the
expressions that equal themselves are those without undefined numbers. Two equal expressions of a
population are of one kind, have the same schema and, as far as their scalars can be asked, the same
non-zero count; whatever is built on them, without undefined numbers of its own, agrees, and so do
their plans. -/
theorem same_exchangeable [ComparedCell α] {next : NodeId} {nodes : Set (Expr α)}
    (hp : Population next nodes) :
    (∀ e f : Expr α, e.same f = true → f.same e = true) ∧
    (∀ e f g : Expr α, e.same f = true → f.same g = true → e.same g = true) ∧
    (∀ e : Expr α, e.same e = true ↔ e.hasUndefined = false) ∧
    ∀ e ∈ nodes, ∀ f ∈ nodes, e.same f = true →
      (e.name = f.name ∧ e.schema = f.schema ∧
        (e.hasWide = false → f.hasWide = false → e.nonZeroCount = f.nonZeroCount)) ∧
      (∀ u : Use α, u.hasUndefined = false → ∀ n n', Agree (u.build e n) (u.build f n')) ∧
      ∀ n n', next ≤ n → next ≤ n' → Agree (e.optimize n) (f.optimize n') := by
  refine ⟨fun e f h => ?_, fun e f g h₁ h₂ => ?_, fun e => same_self_iff,
    fun e he f hf hsame => ?_⟩
  · exact same_iff_equal.2 (same_iff_equal.1 h).symm
  · exact same_iff_equal.2 ((same_iff_equal.1 h₁).trans (same_iff_equal.1 h₂))
  · have h := same_iff_equal.1 hsame
    have hs := h.schema_eq hp he hf
    refine ⟨⟨h.name_eq, hs, h.nonZeroCount_eq hp he hf⟩, fun u hu n n' => u.agree hu h hs n n', ?_⟩
    intro n n' hn hn'
    exact h.optimize_agree (hp.mono hn) (hp.mono hn') he hf

def emptyLeaf : Expr Magnitude :=
  checkpoint 0 (.ofShape 1 1 .int 1)

def plusOne : Expr Magnitude :=
  unary 1 (.scalar .plus (.int 1)) emptyLeaf

/-- Booleans count as numbers. -/
def plusTrue : Expr Magnitude :=
  unary 2 (.scalar .plus (.bool true)) emptyLeaf

theorem population_plusTrue : Population 3 {plusTrue, plusOne, emptyLeaf} := by
  have hp : Population 3 (insert plusTrue (insert plusOne (insert emptyLeaf ∅))) := by
    refine (((Population.empty 0).insert rfl ?_ ?_).insert rfl ?_ ?_).insert rfl ?_ ?_
    all_goals first | trivial | simp [plusOne, plusTrue, emptyLeaf, children]
  rwa [insert_empty_eq] at hp

/-- Equal sums have equal transposes and equal plans. -/
theorem same_exchangeable_plusTrue : plusOne.same plusTrue = true ∧
    Agree (Use.transposed.build plusOne 3) (Use.transposed.build plusTrue 3) ∧
    Agree (plusOne.optimize 3) (plusTrue.optimize 3) := by
  have hsame : plusOne.same plusTrue = true := rfl
  obtain ⟨-, -, -, h⟩ := same_exchangeable population_plusTrue
  obtain ⟨-, huses, hplans⟩ := h plusOne (by simp) plusTrue (by simp) hsame
  exact ⟨hsame, huses .transposed rfl 3 3, hplans 3 3 (Nat.le_refl 3) (Nat.le_refl 3)⟩

/-- The products of equal sums with one and the same matrix are not equal if the matrix holds an
undefined number. -/
theorem same_exchangeable_needs_defined :
    let u : Use Magnitude := .unary (.rightMultiply ⟨1, 1, #v[#v[.undefined]]⟩)
    plusOne.same plusTrue = true ∧ ∃ e f, u.build plusOne 3 = .ok (e, 4) ∧
      u.build plusTrue 3 = .ok (f, 4) ∧ e.same f = false ∧
      ¬ Agree (u.build plusOne 3) (u.build plusTrue 3) := by
  intro u
  have hproduct (a : Expr Magnitude) (ha : a.schema.columns = .ofLength 1) :
      u.build a 3 = .ok (unary 3 (.rightMultiply ⟨1, 1, #v[#v[.undefined]]⟩) a, 4) :=
    ofUnary_of_admits (UnaryOp.admits_rightMultiply_iff.2 ha) 3
  refine ⟨rfl, _, _, hproduct _ rfl, hproduct _ rfl, rfl, ?_⟩
  rw [hproduct _ rfl, hproduct _ rfl]
  exact Bool.false_ne_true

end Expr

end RowAlgebra

import Mathlib.Logic.Relation
import RowAlgebra.Proofs.Plan.Executable

/-!
# What the passes leave alone

A pass gives a node back, number and all, if there is nothing below it to rewrite
(`normalize_self`, `cleanup_self`). A pass makes an operand of its result of each operand that it
goes down to (`normalize_operand`, `cleanup_operand`), so whatever it meets on its way down comes
into the result (`Makes.of_kept`); only the transpositions that are to vanish, and the second
operand of `A'A`, are off that way (`kept_or_takenIn`, `kept_or_inner`). What a pass delivers needs
no further rewriting, and a second run gives back the very nodes of the first one
(`passes_idempotent`).
-/

namespace RowAlgebra

namespace Expr

variable {α : Type}

/-! ## Nothing to rewrite -/

theorem withInput_self (i : NodeId) (op : UnaryOp α) (a : Expr α) (n : NodeId) :
    withInput i op a a n = .ok (unary i op a, n) := by
  unfold withInput
  rw [if_pos rfl]
  rfl

theorem withInputs_self (i : NodeId) (op : BinaryOp) (a b : Expr α) (n : NodeId) :
    withInputs i op a b a b n = .ok (binary i op a b, n) := by
  rw [withInputs, if_pos ⟨rfl, rfl⟩]
  rfl

/-- The second pass gives back an expression without double transpositions. -/
theorem cleanup_self {e : Expr α} (hf : e.hasForeign = false) (hk : e.hasAnyKey = false)
    (hd : ∀ x ∈ e.walk, x.isDouble = false) (n : NodeId) : e.cleanup n = .ok (e, n) := by
  induction e generalizing n with
  | checkpoint i c => rfl
  | foreign i shape => cases hf
  | unary i op a ih =>
    obtain ⟨hroot, hinput⟩ := forall_walk_unary.1 hd
    have hop : op ≠ .transposeAnyKey := by
      rintro rfl
      cases hk
    have ht : op = .transpose → a.isTransposed = false := by
      rintro rfl
      exact hroot
    rw [hasAnyKey_unary i a hop] at hk
    rw [cleanup_unary i hop ht, Build.bind_ok (ih hf hk hinput n), withInput_self]
  | binary i op a b iha ihb =>
    obtain ⟨-, hleft, hright⟩ := forall_walk_binary.1 hd
    obtain ⟨hfa, hfb⟩ := Bool.or_eq_false_iff.1 hf
    obtain ⟨hka, hkb⟩ := Bool.or_eq_false_iff.1 hk
    rw [cleanup_binary, Build.bind_ok (iha hfa hka hleft n), Build.bind_ok (ihb hfb hkb hright n),
      withInputs_self]

theorem CleanForm.hasForeign_eq {e e' : Expr α} (h : CleanForm e e') :
    e'.hasForeign = e.hasForeign := by
  induction h with
  | checkpoint => rfl
  | double i j ha ih => exact ih
  | unary i j hop ht ha ih => exact ih
  | binary i j op ha hb iha ihb => simp only [hasForeign, iha, ihb]

theorem CleanForm.hasAnyKey_eq {e e' : Expr α} (h : CleanForm e e') : e'.hasAnyKey = false := by
  induction h with
  | checkpoint => rfl
  | double i j ha ih => exact ih
  | unary i j hop ht ha ih => exact (hasAnyKey_unary j _ hop).trans ih
  | binary i j op ha hb iha ihb => simp only [hasAnyKey, iha, ihb, Bool.or_self]

/-- A clean form is given back by the second pass. -/
theorem CleanForm.cleanup_eq {e e' : Expr α} (h : CleanForm e e') (hf : e.hasForeign = false)
    (n : NodeId) : e'.cleanup n = .ok (e', n) :=
  cleanup_self (h.hasForeign_eq.trans hf) h.hasAnyKey_eq h.not_isDouble n

section FirstPass

variable [Cell α]

/-- The first pass gives back an expression without products to rewrite. -/
theorem normalize_self {e : Expr α} (hf : e.hasForeign = false)
    (hr : ∀ x ∈ e.walk, x.isRewritten = false) (n : NodeId) : e.normalize n = .ok (e, n) := by
  induction e generalizing n with
  | checkpoint i c => rfl
  | foreign i shape => cases hf
  | unary i op a ih =>
    obtain ⟨hroot, hinput⟩ := forall_walk_unary.1 hr
    have hop : ∀ m, op ≠ .leftMultiply m := by
      rintro m rfl
      cases hroot
    rw [normalize_unary i a hop, Build.bind_ok (ih hf hinput n), withInput_self]
  | binary i op a b iha ihb =>
    obtain ⟨hroot, hleft, hright⟩ := forall_walk_binary.1 hr
    obtain ⟨hfa, hfb⟩ := Bool.or_eq_false_iff.1 hf
    have hop : op ≠ .matMul := by
      rintro rfl
      cases hroot
    rw [normalize_binary i a b hop, Build.bind_ok (iha hfa hleft n),
      Build.bind_ok (ihb hfb hright n), withInputs_self]

/-- A normal form is given back by the first pass. -/
theorem NormalForm.normalize_eq {e e' : Expr α} (h : NormalForm e e') (hf : e.hasForeign = false)
    (n : NodeId) : e'.normalize n = .ok (e', n) :=
  normalize_self (h.hasForeign_eq.trans hf) h.not_isRewritten n

/-- A plan is its own plan. -/
theorem Planned.optimize_eq {e plan : Expr α} (h : e.Planned plan) (n : NodeId) :
    plan.optimize n = .ok (plan, n) := by
  obtain ⟨middle, hm, hc⟩ := h
  have hf : plan.hasForeign = false := hc.cleanForm.hasForeign_eq.trans hc.known
  have hr : ∀ x ∈ plan.walk, x.isRewritten = false := fun x hx =>
    not_isRewritten_of_isExecutable (hc.cleanForm.isExecutable hm.normalForm.not_isRewritten x hx)
  rw [optimize, Build.bind_ok (normalize_self hf hr n)]
  exact hc.cleanForm.cleanup_eq hc.known n

end FirstPass

/-! ## What becomes of the operands -/

/-- The operands that the second pass goes down to. -/
def cleanOperands : Expr α → List (Expr α)
  | unary _ .transpose (unary _ .transpose a) => [a]
  | e => e.children

/-- The operands that the first pass goes down to: products take the transpositions of their
operands in, and `A'A` needs the matrix once. -/
def normalOperands [Cell α] : Expr α → List (Expr α)
  | binary _ .matMul a b =>
    if a.isGramian b then a.children
    else if b.isTransposed then a :: b.children
    else if a.isAnyTransposed then a.children ++ [b]
    else [a, b]
  | e => e.children

/-- Whether `x` is met on the way down from `e` that `operands` describes. -/
def Kept (operands : Expr α → List (Expr α)) : Expr α → Expr α → Prop :=
  Relation.ReflTransGen fun x y => y ∈ operands x

namespace Kept

variable {operands : Expr α → List (Expr α)} {e x y : Expr α}

theorem self (e : Expr α) : Kept operands e e :=
  Relation.ReflTransGen.refl

theorem below (h : Kept operands x y) (hx : x ∈ operands e) : Kept operands e y :=
  Relation.ReflTransGen.head hx h

end Kept

/-- A node is kept, or it has been dropped by a node that is kept. -/
theorem kept_or_dropped {operands : Expr α → List (Expr α)} {Drops : Expr α → Expr α → Prop}
    (hone : ∀ {p x : Expr α}, x ∈ p.walk →
      x = p ∨ (∃ a ∈ operands p, a.size < p.size ∧ x ∈ a.walk) ∨ Drops p x)
    {e x : Expr α} (hx : x ∈ e.walk) :
    Kept operands e x ∨ ∃ p, Kept operands e p ∧ Drops p x := by
  induction hn : e.size using Nat.strong_induction_on generalizing e with
  | _ n ih =>
    subst hn
    rcases hone hx with rfl | ⟨a, ha, hlt, hx⟩ | hdrop
    · exact .inl (.self x)
    · rcases ih a.size hlt hx rfl with h | ⟨p, h, hdrop⟩
      · exact .inl (h.below ha)
      · exact .inr ⟨p, h.below ha, hdrop⟩
    · exact .inr ⟨e, .self e, hdrop⟩

/-- Whether `pass` makes `e'` of the node `e` of some population. -/
def Makes (pass : Expr α → Build (Expr α)) (e e' : Expr α) : Prop :=
  ∃ next next' nodes, Population next nodes ∧ e ∈ nodes ∧ pass e next = .ok (e', next')

/-- Whether a pass delivers nodes of the population, if any. -/
def Delivers (pass : Expr α → Build (Expr α)) : Prop :=
  ∀ {next next' : NodeId} {nodes : Set (Expr α)}, Population next nodes → ∀ {e e' : Expr α},
    e ∈ nodes → pass e next = .ok (e', next') →
    ∃ nodes', nodes ⊆ nodes' ∧ Population next' nodes' ∧ e' ∈ nodes'

namespace Delivers

variable {pass : Expr α → Build (Expr α)} {next next' : NodeId} {nodes : Set (Expr α)}
  {a b r : Expr α}

theorem one (hd : Delivers pass) (hp : Population next nodes) (ha : a ∈ nodes)
    {f : Expr α → Build (Expr α)} (h : (do f (← pass a)) next = .ok (r, next')) :
    ∃ a' n N, Makes pass a a' ∧ nodes ⊆ N ∧ Population n N ∧ a' ∈ N ∧
      f a' n = .ok (r, next') := by
  obtain ⟨a', n, hpass, hrest⟩ := Build.bind_eq_ok h
  obtain ⟨N, hs, hp', ha'⟩ := hd hp ha hpass
  exact ⟨a', n, N, ⟨next, n, nodes, hp, ha, hpass⟩, hs, hp', ha', hrest⟩

theorem two (hd : Delivers pass) (hp : Population next nodes) (ha : a ∈ nodes) (hb : b ∈ nodes)
    {f : Expr α → Expr α → Build (Expr α)}
    (h : (do let l ← pass a; f l (← pass b)) next = .ok (r, next')) :
    ∃ a' b' n N, Makes pass a a' ∧ Makes pass b b' ∧ nodes ⊆ N ∧ Population n N ∧ a' ∈ N ∧
      b' ∈ N ∧ f a' b' n = .ok (r, next') := by
  obtain ⟨a', n₁, N₁, hma, hs₁, hp₁, ha', h₁⟩ := hd.one hp ha h
  obtain ⟨b', n₂, N₂, hmb, hs₂, hp₂, hb', h₂⟩ := hd.one hp₁ (hs₁ hb) h₁
  exact ⟨a', b', n₂, N₂, hma, hmb, hs₁.trans hs₂, hp₂, hs₂ ha', hb', h₂⟩

end Delivers

/-- What holds step by step on the way down holds all the way. -/
theorem Makes.of_kept {pass : Expr α → Build (Expr α)} {operands : Expr α → List (Expr α)}
    (hstep : ∀ {e e' x}, Makes pass e e' → x ∈ operands e → ∃ x' ∈ e'.walk, Makes pass x x')
    {e e' s : Expr α} (h : Makes pass e e') (hk : Kept operands e s) :
    ∃ s' ∈ e'.walk, Makes pass s s' := by
  induction hk with
  | refl => exact ⟨e', mem_walk_self e', h⟩
  | tail _ hx ih =>
    obtain ⟨s', hs', hmade⟩ := ih
    obtain ⟨x', hx', hmade'⟩ := hstep hmade hx
    exact ⟨x', mem_walk_trans hx' hs', hmade'⟩

section Inputs

variable {next next' next'' : NodeId} {nodes : Set (Expr α)} (hp : Population next' nodes)

theorem ofUnary_keeps {op : UnaryOp α} {a r : Expr α} (h : ofUnary op a next = .ok (r, next'')) :
    a ∈ r.walk :=
  (ofUnary_eq_ok h).2.1 ▸ mem_walk_input _ _ _

theorem ofBinary_keeps {op : BinaryOp} {a b r : Expr α}
    (h : ofBinary op a b next = .ok (r, next'')) : a ∈ r.walk ∧ b ∈ r.walk :=
  (ofBinary_eq_ok h).2.1 ▸ ⟨mem_walk_left _ _ _ _, mem_walk_right _ _ _ _⟩

include hp in
theorem withInput_keeps {i : NodeId} {op : UnaryOp α} {a new r : Expr α} (ha : a ∈ nodes)
    (hnew : new ∈ nodes) (h : withInput i op a new next = .ok (r, next'')) : new ∈ r.walk := by
  unfold withInput at h
  split at h
  · next hid =>
    obtain rfl := hp.identified _ hnew _ ha hid
    cases h
    exact mem_walk_input i op _
  · split at h
    · exact ofUnary_keeps h
    · exact ofUnary_keeps h

include hp in
theorem withInputs_keeps {i : NodeId} {op : BinaryOp} {a b newA newB r : Expr α} (ha : a ∈ nodes)
    (hb : b ∈ nodes) (hnewA : newA ∈ nodes) (hnewB : newB ∈ nodes)
    (h : withInputs i op a b newA newB next = .ok (r, next'')) : newA ∈ r.walk ∧ newB ∈ r.walk := by
  unfold withInputs at h
  split at h
  · next hid =>
    obtain rfl := hp.identified _ hnewA _ ha hid.1
    obtain rfl := hp.identified _ hnewB _ hb hid.2
    cases h
    exact ⟨mem_walk_left i op _ _, mem_walk_right i op _ _⟩
  · exact ofBinary_keeps h

end Inputs

/-! ### The second pass -/

theorem cleanup_delivers : Delivers (cleanup : Expr α → Build (Expr α)) := by
  intro next next' nodes hp e e' he h
  obtain ⟨nodes', hs, hp', he', -⟩ := (cleanup_yields hp he).of_ok h
  exact ⟨nodes', hs, hp', he'⟩

theorem cleanOperands_unary {i : NodeId} {op : UnaryOp α} {a : Expr α}
    (ht : op = .transpose → a.isTransposed = false) : (unary i op a).cleanOperands = [a] := by
  rw [cleanOperands]
  · rfl
  · rintro j k b h
    cases h
    cases ht rfl

/-- Whether `x` is the inner one of two transpositions, the outer one of which is `p`. -/
def InnerOf (p x : Expr α) : Prop :=
  x.isTransposed = true ∧ ∃ i, p = unary i .transpose x

/-- The second pass drops nothing but inner transpositions. -/
theorem kept_or_inner {e x : Expr α} (hx : x ∈ e.walk) :
    Kept cleanOperands e x ∨ ∃ p, Kept cleanOperands e p ∧ InnerOf p x := by
  refine kept_or_dropped (fun {p x} hp => ?_) hx
  cases p with
  | checkpoint i c => exact .inl (List.mem_singleton.1 hp)
  | foreign i shape => exact .inl (List.mem_singleton.1 hp)
  | unary i op a =>
    rcases List.mem_cons.1 (walk_unary i op a ▸ hp) with rfl | ha
    · exact .inl rfl
    refine .inr ?_
    by_cases ht : op = .transpose ∧ a.isTransposed = true
    · obtain ⟨rfl, ht⟩ := ht
      obtain ⟨j, b, rfl⟩ := isTransposed_iff.1 ht
      have hlt := (size_input_lt j .transpose b).trans (size_input_lt i .transpose _)
      rcases List.mem_cons.1 (walk_unary j .transpose b ▸ ha) with rfl | hb
      · exact .inr ⟨ht, i, rfl⟩
      · exact .inl ⟨b, List.mem_singleton_self b, hlt, hb⟩
    · have ht' : op = .transpose → a.isTransposed = false := fun hop =>
        Bool.eq_false_iff.2 fun h => ht ⟨hop, h⟩
      rw [cleanOperands_unary ht']
      exact .inl ⟨a, List.mem_singleton_self a, size_input_lt i op a, ha⟩
  | binary i op a b =>
    rcases List.mem_cons.1 (walk_binary i op a b ▸ hp) with rfl | hab
    · exact .inl rfl
    rcases List.mem_append.1 hab with ha | hb
    · exact .inr (.inl ⟨a, List.mem_pair.2 (.inl rfl), size_left_lt i op a b, ha⟩)
    · exact .inr (.inl ⟨b, List.mem_pair.2 (.inr rfl), size_right_lt i op a b, hb⟩)

theorem cleanup_operand {e e' x : Expr α} (h : Makes cleanup e e') (hx : x ∈ e.cleanOperands) :
    ∃ x' ∈ e'.walk, Makes cleanup x x' := by
  obtain ⟨next, next', nodes, hp, he, hmade⟩ := h
  cases e with
  | checkpoint i c => cases hx
  | foreign i shape => cases hx
  | unary i op a =>
    by_cases hop : op = .transposeAnyKey
    · subst hop
      rw [cleanup_transposeAnyKey] at hmade
      cases hmade
    by_cases ht : op = .transpose ∧ a.isTransposed = true
    · obtain ⟨rfl, ht⟩ := ht
      obtain ⟨j, b, rfl⟩ := isTransposed_iff.1 ht
      obtain rfl := List.mem_singleton.1 hx
      rw [cleanup_double] at hmade
      exact ⟨e', mem_walk_self e', next, next', nodes, hp, hp.input (hp.input he), hmade⟩
    · have ht' : op = .transpose → a.isTransposed = false := fun hop =>
        Bool.eq_false_iff.2 fun h => ht ⟨hop, h⟩
      rw [cleanOperands_unary ht'] at hx
      obtain rfl := List.mem_singleton.1 hx
      rw [cleanup_unary i hop ht'] at hmade
      obtain ⟨a', n, N, hma, hs, hp', ha', hlast⟩ := cleanup_delivers.one hp (hp.input he) hmade
      exact ⟨a', withInput_keeps hp' (hs (hp.input he)) ha' hlast, hma⟩
  | binary i op a b =>
    rw [cleanup_binary] at hmade
    obtain ⟨a', b', n, N, hma, hmb, hs, hp', ha', hb', hlast⟩ :=
      cleanup_delivers.two hp (hp.left he) (hp.right he) hmade
    obtain ⟨hka, hkb⟩ :=
      withInputs_keeps hp' (hs (hp.left he)) (hs (hp.right he)) ha' hb' hlast
    rcases List.mem_pair.1 hx with rfl | rfl
    · exact ⟨a', hka, hma⟩
    · exact ⟨b', hkb, hmb⟩

theorem Makes.eq_of_cleaned {e e' : Expr α} (h : Makes cleanup e e')
    (hd : ∀ x ∈ e.walk, x.isDouble = false) : e' = e := by
  obtain ⟨next, _, nodes, hp, he, hmade⟩ := h
  obtain ⟨-, -, -, -, hc⟩ := (cleanup_yields hp he).of_ok hmade
  cases hmade.symm.trans (cleanup_self hc.known hc.noAnyKey hd next)
  rfl

/-! ### The first pass -/

variable [Cell α]

theorem normalize_delivers : Delivers (normalize : Expr α → Build (Expr α)) := by
  intro next next' nodes hp e e' he h
  obtain ⟨nodes', hs, hp', he', -⟩ := (normalize_yields hp he).of_ok h
  exact ⟨nodes', hs, hp', he'⟩

theorem normalOperands_binary (i : NodeId) {op : BinaryOp} (a b : Expr α) (hop : op ≠ .matMul) :
    (binary i op a b).normalOperands = [a, b] := by
  rw [normalOperands]
  · rfl
  · rintro j x y hxy
    cases hxy
    exact hop rfl

theorem normalOperands_gramian (i j : NodeId) {op : UnaryOp α} {a b : Expr α}
    (hop : op.transposes = true) (hs : a.same b = true) :
    (binary i .matMul (unary j op a) b).normalOperands = [a] := by
  rw [normalOperands, if_pos (isGramian_iff.2 ⟨j, op, a, rfl, hop, hs⟩)]
  rfl

theorem normalOperands_timesTransposed (i j : NodeId) {a b : Expr α}
    (hg : a.isGramian (unary j .transpose b) = false) :
    (binary i .matMul a (unary j .transpose b)).normalOperands = [a, b] := by
  have ht : (unary j .transpose b).isTransposed = true := rfl
  rw [normalOperands, if_neg (Bool.eq_false_iff.1 hg), if_pos ht]
  rfl

theorem normalOperands_transposedTimes (i j : NodeId) {op : UnaryOp α} {a b : Expr α}
    (hop : op.transposes = true) (hs : a.same b = false) (ht : b.isTransposed = false) :
    (binary i .matMul (unary j op a) b).normalOperands = [a, b] := by
  have hg : ¬ (unary j op a).isGramian b = true := by simp [isGramian, hs]
  have hl : (unary j op a).isAnyTransposed = true := hop
  rw [normalOperands, if_neg hg, if_neg (Bool.eq_false_iff.1 ht), if_pos hl]
  rfl

theorem normalOperands_times (i : NodeId) {a b : Expr α} (hl : a.isAnyTransposed = false)
    (ht : b.isTransposed = false) : (binary i .matMul a b).normalOperands = [a, b] := by
  have hg : ¬ a.isGramian b = true := by
    intro hg
    obtain ⟨j, op, x, rfl, hop, -⟩ := isGramian_iff.1 hg
    exact absurd (hop.symm.trans hl) nofun
  rw [normalOperands, if_neg hg, if_neg (Bool.eq_false_iff.1 ht), if_neg (Bool.eq_false_iff.1 hl)]

section Products

variable {next next' : NodeId} {nodes : Set (Expr α)} (hp : Population next nodes)

include hp in
theorem normalize_operand_matMul {i : NodeId} {a b e' x : Expr α}
    (he : binary i .matMul a b ∈ nodes)
    (h : (binary i .matMul a b).normalize next = .ok (e', next'))
    (hx : x ∈ (binary i .matMul a b).normalOperands) : ∃ x' ∈ e'.walk, Makes normalize x x' := by
  cases productRule a b with
  | gramian j hop hs =>
    rw [normalOperands_gramian i j hop hs, List.mem_singleton] at hx
    rw [normalize_gramian i j hop hs] at h
    obtain ⟨x', n, N, hmx, -, -, -, hlast⟩ := normalize_delivers.one hp (hp.input (hp.left he)) h
    exact ⟨x', ofUnary_keeps hlast, hx ▸ hmx⟩
  | timesTransposed j hg =>
    rw [normalOperands_timesTransposed i j hg] at hx
    rw [normalize_timesTransposed i j hg] at h
    obtain ⟨a', b', n, N, hma, hmb, -, -, -, -, hlast⟩ :=
      normalize_delivers.two hp (hp.left he) (hp.input (hp.right he)) h
    obtain ⟨hka, hkb⟩ := ofBinary_keeps hlast
    rcases List.mem_pair.1 hx with rfl | rfl
    · exact ⟨a', hka, hma⟩
    · exact ⟨b', hkb, hmb⟩
  | transposedTimes j hop hs ht =>
    rw [normalOperands_transposedTimes i j hop hs ht] at hx
    rw [normalize_transposedTimes i j hop hs ht] at h
    obtain ⟨a', b', n, N, hma, hmb, -, -, -, -, hlast⟩ :=
      normalize_delivers.two hp (hp.input (hp.left he)) (hp.right he) h
    obtain ⟨hka, hkb⟩ := ofBinary_keeps hlast
    rcases List.mem_pair.1 hx with rfl | rfl
    · exact ⟨a', hka, hma⟩
    · exact ⟨b', hkb, hmb⟩
  | times hl ht =>
    rw [normalOperands_times i hl ht] at hx
    rw [normalize_times i hl ht] at h
    obtain ⟨a', b', n, N, hma, hmb, -, -, -, -, hlast⟩ :=
      normalize_delivers.two hp (hp.left he) (hp.right he) h
    obtain ⟨flipped, n', hflip, hlast⟩ := Build.bind_eq_ok hlast
    obtain ⟨hka, hkf⟩ := ofBinary_keeps hlast
    rcases List.mem_pair.1 hx with rfl | rfl
    · exact ⟨a', hka, hma⟩
    · exact ⟨b', mem_walk_trans (ofUnary_keeps hflip) hkf, hmb⟩

end Products

/-- Whether the product `p` takes `x` in: a transposition becomes part of the product, and of `A'A`
the right operand is dropped as a whole. -/
inductive TakenIn : Expr α → Expr α → Prop
  | twin (i : NodeId) {a b x : Expr α} (hg : a.isGramian b = true) (hx : x ∈ b.walk) :
      TakenIn (binary i .matMul a b) x
  | left (i : NodeId) {a : Expr α} (b : Expr α) (hl : a.isAnyTransposed = true) :
      TakenIn (binary i .matMul a b) a
  | right (i : NodeId) (a : Expr α) {b : Expr α} (ht : b.isTransposed = true) :
      TakenIn (binary i .matMul a b) b

theorem takenIn_or_mem {i : NodeId} {a b x : Expr α} (hx : x ∈ a.walk ∨ x ∈ b.walk) :
    (∃ y ∈ (binary i .matMul a b).normalOperands, y.size < (binary i .matMul a b).size ∧
      x ∈ y.walk) ∨ TakenIn (binary i .matMul a b) x := by
  have hlt := size_left_lt i .matMul a b
  have hgt := size_right_lt i .matMul a b
  cases productRule a b with
  | @gramian j op y _ hop hs =>
    rw [normalOperands_gramian i j hop hs]
    rcases hx with hx | hx
    · rcases List.mem_cons.1 (walk_unary j op y ▸ hx) with rfl | hx
      · exact .inr (.left i b hop)
      · exact .inl ⟨y, List.mem_singleton_self y, (size_input_lt j op y).trans hlt, hx⟩
    · exact .inr (.twin i (isGramian_iff.2 ⟨j, op, y, rfl, hop, hs⟩) hx)
  | @timesTransposed j _ y hg =>
    rw [normalOperands_timesTransposed i j hg]
    rcases hx with hx | hx
    · exact .inl ⟨a, List.mem_pair.2 (.inl rfl), hlt, hx⟩
    · rcases List.mem_cons.1 (walk_unary j .transpose y ▸ hx) with rfl | hx
      · exact .inr (.right i a rfl)
      · exact .inl ⟨y, List.mem_pair.2 (.inr rfl), (size_input_lt j .transpose y).trans hgt, hx⟩
  | @transposedTimes j op y _ hop hs ht =>
    rw [normalOperands_transposedTimes i j hop hs ht]
    rcases hx with hx | hx
    · rcases List.mem_cons.1 (walk_unary j op y ▸ hx) with rfl | hx
      · exact .inr (.left i b hop)
      · exact .inl ⟨y, List.mem_pair.2 (.inl rfl), (size_input_lt j op y).trans hlt, hx⟩
    · exact .inl ⟨b, List.mem_pair.2 (.inr rfl), hgt, hx⟩
  | times hl ht =>
    rw [normalOperands_times i hl ht]
    rcases hx with hx | hx
    · exact .inl ⟨a, List.mem_pair.2 (.inl rfl), hlt, hx⟩
    · exact .inl ⟨b, List.mem_pair.2 (.inr rfl), hgt, hx⟩

/-- The first pass drops nothing but what a product takes in. -/
theorem kept_or_takenIn {e x : Expr α} (hx : x ∈ e.walk) :
    Kept normalOperands e x ∨ ∃ p, Kept normalOperands e p ∧ TakenIn p x := by
  refine kept_or_dropped (fun {p x} hp => ?_) hx
  cases p with
  | checkpoint i c => exact .inl (List.mem_singleton.1 hp)
  | foreign i shape => exact .inl (List.mem_singleton.1 hp)
  | unary i op a =>
    rcases List.mem_cons.1 (walk_unary i op a ▸ hp) with rfl | ha
    · exact .inl rfl
    · exact .inr (.inl ⟨a, List.mem_singleton_self a, size_input_lt i op a, ha⟩)
  | binary i op a b =>
    rcases List.mem_cons.1 (walk_binary i op a b ▸ hp) with rfl | hab
    · exact .inl rfl
    refine .inr ?_
    by_cases hop : op = .matMul
    · subst hop
      exact takenIn_or_mem (List.mem_append.1 hab)
    · rw [normalOperands_binary i a b hop]
      rcases List.mem_append.1 hab with ha | hb
      · exact .inl ⟨a, List.mem_pair.2 (.inl rfl), size_left_lt i op a b, ha⟩
      · exact .inl ⟨b, List.mem_pair.2 (.inr rfl), size_right_lt i op a b, hb⟩

theorem normalize_operand {e e' x : Expr α} (h : Makes normalize e e')
    (hx : x ∈ e.normalOperands) : ∃ x' ∈ e'.walk, Makes normalize x x' := by
  obtain ⟨next, next', nodes, hp, he, hmade⟩ := h
  cases e with
  | checkpoint i c => cases hx
  | foreign i shape => cases hx
  | unary i op a =>
    obtain rfl := List.mem_singleton.1 hx
    by_cases hop : ∃ m, op = .leftMultiply m
    · obtain ⟨m, rfl⟩ := hop
      rw [normalize_leftMultiply] at hmade
      obtain ⟨a', n, N, hma, -, -, -, hrest⟩ := normalize_delivers.one hp (hp.input he) hmade
      obtain ⟨flipped, n₁, hflip, hrest⟩ := Build.bind_eq_ok hrest
      obtain ⟨product, n₂, hprod, hlast⟩ := Build.bind_eq_ok hrest
      have hproduct := mem_walk_trans (ofUnary_keeps hprod) (ofUnary_keeps hlast)
      exact ⟨a', mem_walk_trans (ofUnary_keeps hflip) hproduct, hma⟩
    · rw [normalize_unary i _ (not_exists.1 hop)] at hmade
      obtain ⟨a', n, N, hma, hs, hp', ha', hlast⟩ := normalize_delivers.one hp (hp.input he) hmade
      exact ⟨a', withInput_keeps hp' (hs (hp.input he)) ha' hlast, hma⟩
  | binary i op a b =>
    by_cases hop : op = .matMul
    · subst hop
      exact normalize_operand_matMul hp he hmade hx
    · rw [normalOperands_binary i a b hop] at hx
      rw [normalize_binary i a b hop] at hmade
      obtain ⟨a', b', n, N, hma, hmb, hs, hp', ha', hb', hlast⟩ :=
        normalize_delivers.two hp (hp.left he) (hp.right he) hmade
      obtain ⟨hka, hkb⟩ :=
        withInputs_keeps hp' (hs (hp.left he)) (hs (hp.right he)) ha' hb' hlast
      rcases List.mem_pair.1 hx with rfl | rfl
      · exact ⟨a', hka, hma⟩
      · exact ⟨b', hkb, hmb⟩

theorem Makes.eq_of_normalized {e e' : Expr α} (h : Makes normalize e e')
    (hr : ∀ x ∈ e.walk, x.isRewritten = false) : e' = e := by
  obtain ⟨next, _, nodes, hp, he, hmade⟩ := h
  obtain ⟨-, -, -, -, hn⟩ := (normalize_yields hp he).of_ok hmade
  cases hmade.symm.trans (normalize_self hn.known hr next)
  rfl

/-! ## Both passes -/

/-- **The passes keep identity and are idempotent.** Each of them gives a node back exactly if there
is nothing below it to rewrite, takes over every such node that it goes down to, and gives back what
it has made itself; and a plan is its own plan. -/
theorem passes_idempotent {next : NodeId} {nodes : Set (Expr α)} (hp : Population next nodes)
    {e : Expr α} (he : e ∈ nodes) (hknown : e.hasForeign = false) :
    (∃ middle n, e.normalize next = .ok (middle, n) ∧
      (middle.id = e.id → middle = e) ∧
      (middle = e ↔ ∀ x ∈ e.walk, x.isRewritten = false) ∧
      (∀ s, Kept normalOperands e s → (∀ x ∈ s.walk, x.isRewritten = false) → s ∈ middle.walk) ∧
      ∀ m, middle.normalize m = .ok (middle, m)) ∧
    (∀ clean n, e.cleanup next = .ok (clean, n) →
      (clean.id = e.id → clean = e) ∧
      (clean = e ↔ ∀ x ∈ e.walk, x.isDouble = false) ∧
      (∀ s, Kept cleanOperands e s → (∀ x ∈ s.walk, x.isDouble = false) → s ∈ clean.walk) ∧
      ∀ m, clean.cleanup m = .ok (clean, m)) ∧
    ∀ plan n, e.optimize next = .ok (plan, n) → ∀ m, plan.optimize m = .ok (plan, m) := by
  refine ⟨?_, fun clean n h => ?_, fun plan n h => ?_⟩
  · rcases normalize_yields hp he with ⟨error, -, hf, -⟩ | ⟨middle, n, N, h, -, hs, hp', hmem, hm⟩
    · exact absurd (hknown.symm.trans hf) nofun
    have hmade : Makes normalize e middle := ⟨next, n, nodes, hp, he, h⟩
    refine ⟨middle, n, h, hp'.identified _ hmem _ (hs he), ⟨?_, hmade.eq_of_normalized⟩,
      fun s hk hr => ?_, hm.normalForm.normalize_eq hknown⟩
    · rintro rfl
      exact hm.normalForm.not_isRewritten
    · obtain ⟨s', hs', hmade'⟩ := hmade.of_kept normalize_operand hk
      exact hmade'.eq_of_normalized hr ▸ hs'
  · obtain ⟨N, hs, hp', hmem, hc⟩ := (cleanup_yields hp he).of_ok h
    have hmade : Makes cleanup e clean := ⟨next, n, nodes, hp, he, h⟩
    refine ⟨hp'.identified _ hmem _ (hs he), ⟨?_, hmade.eq_of_cleaned⟩, fun s hk hd => ?_,
      hc.cleanForm.cleanup_eq hknown⟩
    · rintro rfl
      exact hc.cleanForm.not_isDouble
    · obtain ⟨s', hs', hmade'⟩ := hmade.of_kept cleanup_operand hk
      exact hmade'.eq_of_cleaned hd ▸ hs'
  · obtain ⟨-, -, -, -, hplan⟩ := planned_of_optimize hp he h
    exact hplan.optimize_eq

/-- The first pass builds the product `(A + 1)(A + 1)'` anew, but not the sum `A + 1`. -/
theorem passes_idempotent_shared :
    let a : Expr Float := checkpoint 0 (.ofShape 2 3 .int 1)
    let s := unary 1 (.scalar .plus (.int 1)) a
    let e := binary 3 .matMul s (unary 2 .transpose s)
    ∃ middle n, e.normalize 4 = .ok (middle, n) ∧ middle ≠ e ∧ s ∈ middle.walk ∧
      ∀ m, middle.normalize m = .ok (middle, m) := by
  intro a s e
  have hp : Population 4 (insert e (insert (unary 2 .transpose s) (insert s (insert a ∅)))) := by
    refine ((((Population.empty 0).insert rfl ?_ ?_).insert rfl ?_ ?_).insert rfl ?_ ?_).insert
      rfl ?_ ?_
    all_goals first | trivial | simp [a, s, e, children]
  obtain ⟨middle, n, h, -, hsame, hkept, hagain⟩ :=
    (passes_idempotent hp (Set.mem_insert _ _) rfl).1
  have hs : s ∈ e.normalOperands := by
    rw [normalOperands_timesTransposed 3 2 rfl]
    exact List.mem_cons_self
  refine ⟨middle, n, h, fun hm => ?_, hkept s (.below (.self s) hs) ?_, hagain⟩
  · have hroot : e.isRewritten = false := hsame.1 hm e (mem_walk_self e)
    cases hroot
  · exact forall_walk_unary.2 ⟨rfl, by simp [a, walk, isRewritten]⟩

end Expr

end RowAlgebra

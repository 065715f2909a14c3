import RowAlgebra.Proofs.Expr.Drawing
import RowAlgebra.Proofs.Expr.Network

/-!
# Views of an expression

The network of an expression, its drawing, the counts of its operators and the list of its shared
nodes come from traversals of their own: a search with a stack, a recursion that carries along what
has been drawn, and the walk. All of them show the same nodes and edges (`views_agree`). They show
labels as well, so there is no network if a label has an integer of too many digits
(`Expr.HasLongInt`); and drawings show sides, so nothing is drawn, either, if some node has a long
side (`Expr.HasLongSide`) or is a range of rows too long to be counted (`Expr.HasLongRange`,
`uncounted_not_drawn`).
-/

namespace RowAlgebra

namespace Expr

variable {α : Type}

/-- Whether some node is a range with more rows than can be counted. -/
def HasLongRange (e : Expr α) : Prop :=
  ∃ i start stop a, e.Reaches (unary i (.rowRange start stop) a) ∧ 2 ^ 63 ≤ stop - start

theorem HasLongRange.trans {e x : Expr α} (h : x.HasLongRange) (hx : e.Reaches x) :
    e.HasLongRange := by
  obtain ⟨i, start, stop, a, ha, hlong⟩ := h
  exact ⟨i, start, stop, a, Relation.ReflTransGen.trans hx ha, hlong⟩

/-- Only for such a node the sides of an expression cannot be told. -/
theorem hasLongRange_of_shape {e : Expr α} {error : Error} (h : e.shape = .error error) :
    e.HasLongRange := by
  by_contra hno
  have hranges : ∀ i start stop a, .unary i (.rowRange start stop) a ∈ e.walk →
      stop - start < 2 ^ 63 := fun i start stop a hmem =>
    Int.not_le.1 fun hlong => hno ⟨i, start, stop, a, reaches_iff.2 hmem, hlong⟩
  rw [shape_of_ranges hranges] at h
  cases h

/-- Whether some node has a side with too many digits. -/
def HasLongSide (e : Expr α) : Prop :=
  ∃ x, e.Reaches x ∧ x.IsLongSided

/-- The network `g` has each node that can be reached from the root once, with its operator and its
label, and an edge from each of them to each of its inputs. -/
structure Depicts (e : Expr α) (g : Network α) : Prop where
  nodup_nodes : (g.nodes.map Prod.fst).Nodup
  operator : ∀ n ∈ g.nodes, ∃ v : Vertex α, n = (v.operator.id, some v)
  mem_nodes : ∀ v : Vertex α,
    (v.operator.id, some v) ∈ g.nodes ↔ e.Reaches v.operator ∧ v.operator.label = .ok v.label
  labelled : ∀ x, e.Reaches x → ∃ t, x.label = .ok t
  nodup_edges : g.edges.Nodup
  mem_edges : ∀ i j, (i, j) ∈ g.edges ↔
    ∃ x a, e.Reaches x ∧ a ∈ x.children ∧ x.id = i ∧ a.id = j

/-- The steps draw each node that can be reached from the root once, in the order of their first
occurrence in the walk, and an edge for each of their inputs. Without repetitions these are the
edges of the network `g`. -/
structure Shows (e : Expr α) (g : Network α) (steps : List DrawStep) : Prop
    extends Draws (firstVisits e.walk []) steps where
  visited : ∀ x, x ∈ firstVisits e.walk [] ↔ e.Reaches x
  order : (firstVisits e.walk []).map id = (e.walk.map id).eraseDups
  dedup_edges : (steps.filterMap DrawStep.edge?).dedup.Perm g.edges

section Root

variable {next : NodeId} {nodes : Set (Expr α)} (hp : Population next nodes) {e : Expr α}
  (he : e ∈ nodes)

section Network

variable {g : Network α} (hg : e.network = .ok g)

include hp he hg in
theorem network_depicts : e.Depicts g where
  nodup_nodes := (network_consists hp he hg).nodup_ids
  operator n hn := by
    rw [network_nodes hp he hg] at hn
    obtain ⟨v, -, rfl⟩ := List.mem_map.1 hn
    exact ⟨v, rfl⟩
  mem_nodes v := by
    rw [reaches_iff, ← mem_vertices hp he hg, network_nodes hp he hg, List.mem_map]
    constructor
    · rintro ⟨w, hw, heq⟩
      exact Option.some.inj (Prod.mk.inj heq).2 ▸ hw
    · exact fun hv => ⟨v, hv, rfl⟩
  labelled x hx := by
    obtain ⟨v, hv, rfl⟩ := (exists_vertex hp he hg).2 (reaches_iff.1 hx)
    exact ⟨v.label, ((mem_vertices hp he hg).1 hv).2⟩
  nodup_edges := (network_consists hp he hg).nodup_edges
  mem_edges i j := by
    rw [mem_edges hp he hg]
    simp only [reaches_iff, exists_and_left]

include hp he hg in
theorem drawing_shows {steps : List DrawStep} (h : Draws (firstVisits e.walk []) steps) :
    e.Shows g steps where
  toDraws := h
  visited x := (mem_firstVisits hp he).trans reaches_iff.symm
  order := ids_firstVisits e.walk
  dedup_edges := by
    rw [List.perm_ext_iff_of_nodup (List.nodup_dedup _) (network_consists hp he hg).nodup_edges]
    rintro ⟨i, j⟩
    rw [List.mem_dedup, h.edges.mem_iff, mem_edges hp he hg, List.mem_flatMap]
    simp only [mem_firstVisits hp he, inputEdges, List.mem_map, Prod.mk.injEq]

end Network

include hp he in
/-- What is drawn has a caption at every node. -/
theorem drawing_cases :
    (¬ e.HasLongInt → ¬ e.HasLongSide → ¬ e.HasLongRange →
      ∃ steps, e.drawing = .ok steps ∧ Draws (firstVisits e.walk []) steps) ∧
    (e.HasLongInt ∨ e.HasLongSide ∨ e.HasLongRange → ∃ err, e.drawing = .error err ∧
      ((err = .fault .value ∧ (e.HasLongInt ∨ e.HasLongSide)) ∨
        (err = .fault .overflow ∧ e.HasLongRange))) := by
  have h := drawing_ends hp he
  cases hdraw : e.drawing with
  | error error =>
    obtain ⟨x, hx, hcaption⟩ := h.of_error hdraw
    have hwalk : x ∈ e.walk := (mem_firstVisits hp he).1 hx
    have hreach : e.Reaches x := reaches_iff.2 hwalk
    have hcause : (error = .fault .value ∧ (e.HasLongInt ∨ e.HasLongSide)) ∨
        (error = .fault .overflow ∧ e.HasLongRange) := by
      rcases (caption_ends x).of_error hcaption with
        ⟨hkind, hlong | hlong⟩ | ⟨hkind, shapeError, hshape⟩
      · exact .inl ⟨hkind, .inl ⟨x, hwalk, hlong⟩⟩
      · exact .inl ⟨hkind, .inr ⟨x, hreach, hlong⟩⟩
      · exact .inr ⟨hkind, (hasLongRange_of_shape hshape).trans hreach⟩
    refine ⟨fun hint hside hrange => ?_, fun _ => ⟨error, rfl, hcause⟩⟩
    rcases hcause with ⟨-, hlong | hlong⟩ | ⟨-, hlong⟩
    · exact absurd hlong hint
    · exact absurd hlong hside
    · exact absurd hlong hrange
  | ok steps =>
    have hdraws : Draws (firstVisits e.walk []) steps := h.of_ok hdraw
    have hcaptioned : ∀ x, e.Reaches x →
        ¬ x.ShowsLongInt ∧ (∃ shape, x.shape = .ok shape) ∧ ¬ x.IsLongSided := by
      intro x hx
      obtain ⟨t, ht⟩ := hdraws.caption_of_mem x ((mem_firstVisits hp he).2 (reaches_iff.1 hx))
      exact (caption_ends x).of_ok ht
    refine ⟨fun _ _ _ => ⟨steps, rfl, hdraws⟩, ?_⟩
    rintro (⟨x, hx, hlong⟩ | ⟨x, hx, hlong⟩ | ⟨i, start, stop, a, hx, hlong⟩)
    · exact absurd hlong (hcaptioned x (reaches_iff.2 hx)).1
    · exact absurd hlong (hcaptioned x hx).2.2
    · obtain ⟨shape, hshape⟩ := (hcaptioned _ hx).2.1
      cases (shape_of_longRange hlong).symm.trans hshape

include hp he in
/-- **All views of an expression show the same graph**, as far as labels and sides can be written.
The network has each operator that can be reached once, with its label, and an edge to each of its
inputs. The counts of the operators add up to the number of nodes. Those that are inputs of at least
two others are shared, and listed in the order of their first occurrence in the walk. The drawing
has the same nodes in the order of their first visit, and an edge for each position. A label with a
long integer is in the way of all of them, a long side or too long a range in that of the drawing
only. -/
theorem views_agree :
    (¬ e.HasLongInt → ∃ g counts shared,
      e.network = .ok g ∧ e.operatorCounts = .ok counts ∧ e.sharedNodes = .ok shared ∧
      e.Depicts g ∧
      (¬ e.HasLongSide → ¬ e.HasLongRange → ∃ steps, e.drawing = .ok steps ∧ e.Shows g steps) ∧
      (counts.map Prod.snd).sum = (e.walk.map id).toFinset.card ∧
      (∀ x, x ∈ shared ↔ ∃ p q, e.Reaches p ∧ e.Reaches q ∧ p.id ≠ q.id ∧
        x ∈ p.children ∧ x ∈ q.children) ∧
      (shared.map id).Pairwise fun i j =>
        (e.walk.map id).idxOf i < (e.walk.map id).idxOf j) ∧
    (e.HasLongInt → e.network = .error (.fault .value) ∧
      e.operatorCounts = .error (.fault .value) ∧ e.sharedNodes = .error (.fault .value)) ∧
    (e.HasLongInt ∨ e.HasLongSide ∨ e.HasLongRange → ∃ err, e.drawing = .error err ∧
      ((err = .fault .value ∧ (e.HasLongInt ∨ e.HasLongSide)) ∨
        (err = .fault .overflow ∧ e.HasLongRange))) := by
  obtain ⟨hdrawn, hundrawn⟩ := drawing_cases hp he
  have hends := network_ends hp he
  refine ⟨fun hshort => ?_, fun hlong => ?_, hundrawn⟩
  · cases hg : e.network with
    | error err => exact absurd (hends.of_error hg).2 hshort
    | ok g =>
      obtain ⟨counts, hcounts, hsum⟩ := operatorCounts_eq hp he hg
      obtain ⟨shared, hshared, hmem, horder⟩ := sharedNodes_eq hp he hg
      refine ⟨g, counts, shared, rfl, hcounts, hshared, network_depicts hp he hg,
        fun hside hrange => ?_, hsum, fun x => ?_, horder⟩
      · obtain ⟨steps, hdraw, hdraws⟩ := hdrawn hshort hside hrange
        exact ⟨steps, hdraw, drawing_shows hp he hg hdraws⟩
      · rw [hmem]
        simp only [reaches_iff, exists_and_left]
  · have hg : e.network = .error (.fault .value) := by
      cases hg : e.network with
      | error err => exact congrArg _ (hends.of_error hg).1
      | ok g => exact absurd hlong (hends.of_ok hg).1
    refine ⟨hg, ?_, ?_⟩
    · rw [operatorCounts, hg]
      rfl
    · rw [sharedNodes, hg]
      rfl

end Root

/-- The network of `(A + 1)'(A + 1)` has the sum once, as its only shared node. -/
theorem views_agree_shared :
    let a : Expr Float := checkpoint 0 (.ofShape 2 3 .int 1)
    let s := unary 1 (.scalar .plus (.int 1)) a
    let e := binary 3 .matMul (unary 2 .transpose s) s
    ∃ g shared, e.network = .ok g ∧ e.sharedNodes = .ok shared ∧ e.Depicts g ∧
      (∃ steps, e.drawing = .ok steps ∧ e.Shows g steps) ∧ s ∈ shared := by
  intro a s e
  have hp : Population 4 (insert e (insert (unary 2 .transpose s) (insert s (insert a ∅)))) := by
    refine ((((Population.empty 0).insert rfl ?_ ?_).insert rfl ?_ ?_).insert rfl ?_ ?_).insert
      rfl ?_ ?_
    all_goals first | trivial | simp [a, s, e, children]
  obtain ⟨hviews, -⟩ := views_agree hp (Set.mem_insert _ _)
  have hint : ¬ e.HasLongInt := by
    unfold e s a
    decide
  have hside : ¬ e.HasLongSide := by
    have hshort : ∀ x ∈ e.walk, ¬ x.IsLongSided := by
      unfold e s a
      decide
    rintro ⟨x, hx, hlong⟩
    exact hshort x (reaches_iff.1 hx) hlong
  have hrange : ¬ e.HasLongRange := by
    rintro ⟨i, start, stop, b, hreach, -⟩
    have hmem := reaches_iff.1 hreach
    simp [e, s, a, walk] at hmem
  obtain ⟨g, -, shared, hg, -, hshared, hnet, hdraw, -, hmem, -⟩ := hviews hint
  refine ⟨g, shared, hg, hshared, hnet, hdraw hside hrange,
    (hmem s).2 ⟨e, unary 2 .transpose s, ?_, ?_, by decide, ?_, ?_⟩⟩
  · exact reaches_iff.2 (mem_walk_self e)
  · exact reaches_iff.2 (mem_walk_left 3 .matMul _ s)
  · simp [e, children]
  · simp [children]

/-- A range of 2⁶³ rows of an empty matrix has a network, but no drawing. -/
theorem uncounted_not_drawn :
    let a : Expr Float := checkpoint 0 (.ofShape (2 ^ 63) 1 .int 0)
    let e := unary 1 (.rowRange 0 (2 ^ 63)) a
    (∃ g, e.network = .ok g ∧ e.Depicts g) ∧ ¬ ∃ steps, e.drawing = .ok steps := by
  intro a e
  have hp : Population 2 (insert e (insert a ∅)) := by
    refine ((Population.empty 0).insert rfl ?_ ?_).insert rfl ?_ ?_
    all_goals first | trivial | simp [a, e, children]
  have hint : ¬ e.HasLongInt := by
    unfold e a
    decide
  obtain ⟨g, hg⟩ : ∃ g, e.network = .ok g := by
    cases hg : e.network with
    | ok g => exact ⟨g, rfl⟩
    | error err => exact absurd ((network_ends hp (Set.mem_insert _ _)).of_error hg).2 hint
  refine ⟨⟨g, hg, network_depicts hp (Set.mem_insert _ _) hg⟩, ?_⟩
  rintro ⟨steps, h⟩
  have hlong : e.HasLongRange :=
    ⟨1, 0, 2 ^ 63, a, reaches_iff.2 (mem_walk_self e), Int.le_refl _⟩
  obtain ⟨err, herror, -⟩ := (drawing_cases hp (Set.mem_insert _ _)).2 (.inr (.inr hlong))
  cases herror.symm.trans h

end Expr

end RowAlgebra

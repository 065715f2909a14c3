import Mathlib.Algebra.BigOperators.Group.List.Lemmas
import Mathlib.Data.Finset.Card
import Mathlib.Data.List.Dedup
import Mathlib.Logic.Relation
import RowAlgebra.Expr.Graph
import RowAlgebra.Proofs.Expr.Label

/-!
# The network of an expression

`Network.Consists` says which nodes, operators and edges a network consists of; each way to enlarge
a network adds what it says and nothing else. The search visits every node below its stack once
(`search_visits`), so the network of an expression consists of what its walk meets
(`network_consists`): its nodes are the operators of the walk, each of them once, and its edges lead
from them to their inputs (`mem_operators`, `mem_edges`).
-/

namespace RowAlgebra

variable {α : Type}

namespace Network

/-- The numbers of the nodes. -/
def ids (g : Network α) : List NodeId :=
  g.nodes.map Prod.fst

/-- The network has the nodes `I` and the edges `E`, each of them once, and knows the operators and
labels `K` of its nodes. -/
structure Consists (g : Network α) (I : Set NodeId) (K : Set (NodeId × Vertex α))
    (E : Set (NodeId × NodeId)) : Prop where
  nodup_ids : g.ids.Nodup
  mem_ids : ∀ i, i ∈ g.ids ↔ i ∈ I
  known : ∀ i v, (i, some v) ∈ g.nodes ↔ (i, v) ∈ K
  nodup_edges : g.edges.Nodup
  mem_edges : ∀ d, d ∈ g.edges ↔ d ∈ E

theorem hasNode_iff {g : Network α} {i : NodeId} : g.hasNode i = true ↔ i ∈ g.ids := by
  simp [hasNode, ids]

namespace Consists

variable {g : Network α} {I : Set NodeId} {K : Set (NodeId × Vertex α)} {E : Set (NodeId × NodeId)}

theorem empty : (Network.empty : Network α).Consists ∅ ∅ ∅ :=
  ⟨.nil, by simp [ids, Network.empty], by simp [Network.empty], .nil, by simp [Network.empty]⟩

theorem join (h : g.Consists I K E) (i : NodeId) : (g.join i).Consists (insert i I) K E := by
  unfold Network.join
  split
  · next hi =>
    have hmem : i ∈ I := (h.mem_ids i).1 (hasNode_iff.1 hi)
    rwa [Set.insert_eq_of_mem hmem]
  · next hi =>
    have hmem : i ∉ g.ids := fun hmem => hi (hasNode_iff.2 hmem)
    refine ⟨?_, fun k => ?_, fun k x => ?_, h.nodup_edges, h.mem_edges⟩
    · rw [ids, List.map_append]
      exact List.concat_eq_append ▸ h.nodup_ids.concat hmem
    · rw [ids, List.map_append, List.mem_append, Set.mem_insert_iff, ← h.mem_ids, or_comm]
      simp [ids]
    · rw [← h.known]
      simp

theorem addNode (h : g.Consists I K E) {v : Vertex α} (hnew : ∀ x, (v.operator.id, x) ∉ K) :
    (g.addNode v).Consists (insert v.operator.id I) (insert (v.operator.id, v) K) E := by
  have hj := h.join v.operator.id
  have hids : (g.addNode v).ids = (g.join v.operator.id).ids := by
    rw [ids, Network.addNode, List.map_map]
    refine List.map_congr_left fun n _ => ?_
    simp only [Function.comp_apply]
    split <;> rfl
  refine ⟨hids ▸ hj.nodup_ids, fun k => hids ▸ hj.mem_ids k, fun k x => ?_, hj.nodup_edges,
    hj.mem_edges⟩
  rw [Network.addNode, List.mem_map, Set.mem_insert_iff]
  constructor
  · rintro ⟨n, hn, heq⟩
    split at heq
    · next hi =>
      cases heq
      exact .inl (hi ▸ rfl)
    · exact .inr ((hj.known k x).1 (heq ▸ hn))
  · rintro (heq | hk)
    · cases heq
      have hmem : v.operator.id ∈ (g.join v.operator.id).ids :=
        (hj.mem_ids _).2 (Set.mem_insert _ _)
      obtain ⟨n, hn, hi⟩ := List.mem_map.1 hmem
      exact ⟨n, hn, by rw [if_pos hi, hi]⟩
    · have hne : k ≠ v.operator.id := by
        rintro rfl
        exact hnew x hk
      exact ⟨(k, some x), (hj.known k x).2 hk, if_neg hne⟩

theorem addEdge (h : g.Consists I K E) (p c : NodeId) :
    (g.addEdge p c).Consists (insert c (insert p I)) K (insert (p, c) E) := by
  have hj := (h.join p).join c
  unfold Network.addEdge
  dsimp only
  split
  · next hd =>
    have hmem : (p, c) ∈ E := (hj.mem_edges _).1 (List.contains_iff_mem.1 hd)
    rwa [Set.insert_eq_of_mem hmem]
  · next hd =>
    have hmem : (p, c) ∉ ((g.join p).join c).edges := fun hmem => hd (List.contains_iff_mem.2 hmem)
    refine ⟨hj.nodup_ids, hj.mem_ids, hj.known, ?_, fun d => ?_⟩
    · exact List.concat_eq_append ▸ hj.nodup_edges.concat hmem
    · rw [List.mem_append, List.mem_singleton, Set.mem_insert_iff, ← hj.mem_edges, or_comm]

theorem congr (h : g.Consists I K E) {I' : Set NodeId} {K' : Set (NodeId × Vertex α)}
    {E' : Set (NodeId × NodeId)} (hI : I = I') (hK : K = K') (hE : E = E') :
    g.Consists I' K' E' := by
  subst hI hK hE
  exact h

theorem addEdges (h : g.Consists I K E) {p : NodeId} (hp : p ∈ I) (as : List (Expr α)) :
    (as.foldl (fun g a => g.addEdge p a.id) g).Consists (I ∪ {i | ∃ a ∈ as, i = a.id}) K
      (E ∪ {d | ∃ a ∈ as, d = (p, a.id)}) := by
  induction as generalizing g I E with
  | nil => exact h.congr (by simp) rfl (by simp)
  | cons a as ih =>
    have hins : insert p I = I := Set.insert_eq_of_mem hp
    have hone := (h.addEdge p a.id).congr (congrArg (insert a.id) hins) rfl rfl
    refine (ih hone (Set.mem_insert_of_mem _ hp)).congr ?_ rfl ?_
    · ext i
      simp [or_assoc, or_left_comm]
    · ext d
      simp [or_assoc, or_left_comm]

/-- A visit adds the node with its operator, and its edges with their ends. -/
theorem visit (h : g.Consists I K E) {v : Vertex α} (hnew : ∀ x, (v.operator.id, x) ∉ K) :
    (g.visit v).Consists (insert v.operator.id I ∪ {i | ∃ a ∈ v.operator.children, i = a.id})
      (insert (v.operator.id, v) K)
      (E ∪ {d | ∃ a ∈ v.operator.children, d = (v.operator.id, a.id)}) :=
  (h.addNode hnew).addEdges (Set.mem_insert _ _) v.operator.children

end Consists

/-! ## Networks of visited nodes -/

section Visits

variable (vs : List (Vertex α)) (v : Vertex α)

/-- The nodes that visits bring in: those visited, and their inputs. -/
def visitedIds : Set NodeId :=
  {i | ∃ v ∈ vs, i = v.operator.id ∨ ∃ a ∈ v.operator.children, i = a.id}

def visitedVertices : Set (NodeId × Vertex α) :=
  {k | ∃ v ∈ vs, k = (v.operator.id, v)}

def visitedEdges : Set (NodeId × NodeId) :=
  {d | ∃ v ∈ vs, ∃ a ∈ v.operator.children, d = (v.operator.id, a.id)}

theorem visitedIds_concat : visitedIds (vs ++ [v]) =
    insert v.operator.id (visitedIds vs) ∪ {i | ∃ a ∈ v.operator.children, i = a.id} := by
  ext i
  simp only [visitedIds, Set.mem_ofPred_eq, List.mem_append, List.mem_singleton, or_and_right,
    exists_or, exists_eq_left, Set.mem_union, Set.mem_insert_iff]
  rw [← or_assoc]
  exact or_congr_left or_comm

theorem visitedVertices_concat :
    visitedVertices (vs ++ [v]) = insert (v.operator.id, v) (visitedVertices vs) := by
  ext k
  simp only [visitedVertices, Set.mem_ofPred_eq, List.mem_append, List.mem_singleton, or_and_right,
    exists_or, exists_eq_left, Set.mem_insert_iff]
  exact or_comm

theorem visitedEdges_concat : visitedEdges (vs ++ [v]) =
    visitedEdges vs ∪ {d | ∃ a ∈ v.operator.children, d = (v.operator.id, a.id)} := by
  ext d
  simp only [visitedEdges, Set.mem_ofPred_eq, List.mem_append, List.mem_singleton, or_and_right,
    exists_or, exists_eq_left, Set.mem_union]

variable {vs}

/-- A network that is built up by visits to different nodes consists of what they bring in. -/
theorem consists_of_visits (hvs : (vs.map fun v => v.operator.id).Nodup) :
    (vs.foldl visit (empty : Network α)).Consists (visitedIds vs) (visitedVertices vs)
      (visitedEdges vs) := by
  induction vs using List.reverseRecOn with
  | nil =>
    refine Consists.empty.congr ?_ ?_ ?_
    · simp [visitedIds]
    · simp [visitedVertices]
    · simp [visitedEdges]
  | append_singleton vs v ih =>
    rw [List.map_append, List.nodup_append] at hvs
    obtain ⟨hvs, -, hnew⟩ := hvs
    rw [List.foldl_append, visitedIds_concat, visitedVertices_concat, visitedEdges_concat]
    refine (ih hvs).visit ?_
    rintro y ⟨z, hz, heq⟩
    exact hnew z.operator.id (List.mem_map_of_mem hz) v.operator.id (by simp)
      (Prod.mk.inj heq).1.symm

end Visits

/-- More than one edge leads to a node exactly if there are two nodes that have one. -/
theorem one_lt_inDegree {g : Network α} (h : g.edges.Nodup) {i : NodeId} :
    1 < g.inDegree i ↔ ∃ p q, p ≠ q ∧ (p, i) ∈ g.edges ∧ (q, i) ∈ g.edges := by
  rw [inDegree, List.countP_eq_length_filter,
    ← List.toFinset_card_of_nodup (h.filter fun edge => edge.2 == i), Finset.one_lt_card]
  simp only [List.mem_toFinset, List.mem_filter, beq_iff_eq]
  constructor
  · rintro ⟨⟨p, _⟩, ⟨hp, rfl⟩, ⟨q, _⟩, ⟨hq, rfl⟩, hne⟩
    exact ⟨p, q, fun hpq => hne (hpq ▸ rfl), hp, hq⟩
  · rintro ⟨p, q, hne, hp, hq⟩
    exact ⟨(p, i), ⟨hp, rfl⟩, (q, i), ⟨hq, rfl⟩, fun heq => hne (Prod.mk.inj heq).1⟩

theorem nodes_eq_of_known {g : Network α}
    (h : ∀ n ∈ g.nodes, ∃ v : Vertex α, n = (v.operator.id, some v)) :
    g.nodes = g.vertices.map fun v => (v.operator.id, some v) := by
  rw [vertices]
  generalize g.nodes = l at h
  induction l with
  | nil => rfl
  | cons n l ih =>
    obtain ⟨⟨v, rfl⟩, hl⟩ := List.forall_mem_cons.1 h
    exact congrArg _ (ih hl)

end Network

/-! ## Tallies -/

theorem nodup_eraseDups {β : Type} [DecidableEq β] : ∀ l : List β, l.eraseDups.Nodup
  | [] => .nil
  | x :: l => by
    rw [List.eraseDups_cons, List.nodup_cons, List.mem_eraseDups]
    exact ⟨by simp, nodup_eraseDups _⟩
termination_by l => l.length
decreasing_by exact Nat.lt_succ_of_le (List.length_filter_le _ l)

/-- A tally counts each text once for each occurrence. -/
theorem Text.sum_tally (texts : List Text) : ((tally texts).map Prod.snd).sum = texts.length := by
  have hperm : (sorted texts.eraseDups).Perm texts.dedup := by
    refine (List.mergeSort_perm _ _).trans ?_
    rw [List.perm_ext_iff_of_nodup (nodup_eraseDups texts) texts.nodup_dedup]
    simp
  rw [tally, List.map_map, ← List.sum_map_count_dedup_eq_length texts]
  exact (hperm.map _).sum_eq

namespace Expr

/-! ## Reachable nodes -/

/-- Whether a node is an input of an input, and so on, of another one, or that one itself. -/
def Reaches : Expr α → Expr α → Prop :=
  Relation.ReflTransGen fun p a => a ∈ p.children

theorem reaches_iff {e x : Expr α} : e.Reaches x ↔ x ∈ e.walk := by
  constructor
  · intro h
    induction h with
    | refl => exact mem_walk_self e
    | tail _ ha ih => exact mem_walk_trans (mem_walk_child ha) ih
  · exact walk_subset_of_closed {x | e.Reaches x} (fun x hx a ha => hx.tail ha) .refl x

/-! ## Nodes in the order of the walk -/

theorem mem_inWalkOrder {e : Expr α} {v : Vertex α} {l : List (Vertex α)} :
    v ∈ e.inWalkOrder l ↔ v ∈ l :=
  (List.mergeSort_perm l _).mem_iff

theorem inWalkOrder_pairwise {e : Expr α} {l : List (Vertex α)}
    (hl : (l.map fun v => v.operator.id).Nodup) (hmem : ∀ v ∈ l, v.operator ∈ e.walk) :
    (((e.inWalkOrder l).map Vertex.operator).map id).Pairwise fun i j =>
      (e.walk.map id).idxOf i < (e.walk.map id).idxOf j := by
  have hperm : (e.inWalkOrder l).Perm l := List.mergeSort_perm l _
  have hnodup : ((e.inWalkOrder l).map fun v => v.operator.id).Nodup :=
    (hperm.map _).nodup_iff.2 hl
  have hle : (e.inWalkOrder l).Pairwise fun a b =>
      (e.walk.map id).idxOf a.operator.id ≤ (e.walk.map id).idxOf b.operator.id := by
    refine (List.pairwise_mergeSort ?_ ?_ l).imp of_decide_eq_true
    · simp only [decide_eq_true_eq]
      exact fun a b c => Nat.le_trans
    · simp only [Bool.or_eq_true, decide_eq_true_eq]
      exact fun a b => Nat.le_total _ _
  rw [List.map_map, List.pairwise_map]
  refine (hle.and (List.pairwise_map.1 hnodup)).imp_of_mem fun {a b} ha hb h => ?_
  have hne : (e.walk.map id).idxOf a.operator.id ≠ (e.walk.map id).idxOf b.operator.id := fun heq =>
    h.2 ((List.idxOf_inj (List.mem_map_of_mem (hmem a (hperm.mem_iff.1 ha)))).1 heq)
  exact Nat.lt_of_le_of_ne h.1 hne

/-! ## The search -/

/-- Visits to the nodes `vs`, which find whatever lies below a stack and has not been visited. -/
structure Visits (stack : List (Expr α)) (visited : List NodeId) (vs : List (Expr α)) : Prop where
  nodup : (vs.map id).Nodup
  fresh : ∀ x ∈ vs, x.id ∉ visited
  below : ∀ x ∈ vs, ∃ s ∈ stack, x ∈ s.walk
  found : ∀ s ∈ stack, s.id ∈ visited ∨ s ∈ vs
  closed : ∀ x ∈ vs, ∀ a ∈ x.children, a.id ∈ visited ∨ a ∈ vs

namespace Visits

variable {next : NodeId} {nodes : Set (Expr α)} {stack vs : List (Expr α)} {visited : List NodeId}
  {e : Expr α}

theorem nil (visited : List NodeId) : Visits ([] : List (Expr α)) visited [] :=
  ⟨.nil, nofun, nofun, nofun, nofun⟩

theorem skip (h : Visits stack visited vs) (he : e.id ∈ visited) :
    Visits (e :: stack) visited vs where
  nodup := h.nodup
  fresh := h.fresh
  below x hx := by
    obtain ⟨s, hs, hxs⟩ := h.below x hx
    exact ⟨s, List.mem_cons_of_mem e hs, hxs⟩
  found := List.forall_mem_cons.2 ⟨.inl he, h.found⟩
  closed := h.closed

theorem visit (hp : Population next nodes) (hs : ∀ s ∈ e :: stack, s ∈ nodes)
    (he : e.id ∉ visited) (h : Visits (e.children.reverse ++ stack) (e.id :: visited) vs) :
    Visits (e :: stack) visited (e :: vs) := by
  have hnodes : e ∈ nodes := hs e List.mem_cons_self
  -- a number that has just been visited is that of `e`, and of no other node
  have hmark {a : Expr α} (ha : a ∈ nodes) (h : a.id ∈ e.id :: visited ∨ a ∈ vs) :
      a.id ∈ visited ∨ a ∈ e :: vs := by
    rcases h with h | h
    · rcases List.mem_cons.1 h with hid | h
      · exact .inr (hp.identified a ha e hnodes hid ▸ List.mem_cons_self)
      · exact .inl h
    · exact .inr (List.mem_cons_of_mem e h)
  have hbelow : ∀ x ∈ vs, ∃ s ∈ e :: stack, x ∈ s.walk := by
    intro x hx
    obtain ⟨s, hs, hxs⟩ := h.below x hx
    rcases List.mem_append.1 hs with hs | hs
    · exact ⟨e, List.mem_cons_self, mem_walk_trans hxs (mem_walk_child (List.mem_reverse.1 hs))⟩
    · exact ⟨s, List.mem_cons_of_mem e hs, hxs⟩
  refine ⟨?_, ?_, ?_, ?_, ?_⟩
  · rw [List.map_cons, List.nodup_cons]
    refine ⟨fun hmem => ?_, h.nodup⟩
    obtain ⟨x, hx, hid⟩ := List.mem_map.1 hmem
    exact h.fresh x hx (hid ▸ List.mem_cons_self)
  · exact List.forall_mem_cons.2 ⟨he, fun x hx hv => h.fresh x hx (List.mem_cons_of_mem _ hv)⟩
  · exact List.forall_mem_cons.2 ⟨⟨e, List.mem_cons_self, mem_walk_self e⟩, hbelow⟩
  · refine List.forall_mem_cons.2 ⟨.inr List.mem_cons_self, fun s hst => ?_⟩
    exact hmark (hs s (List.mem_cons_of_mem e hst)) (h.found s (List.mem_append_right _ hst))
  · refine List.forall_mem_cons.2 ⟨fun a ha => ?_, fun x hx a ha => ?_⟩
    · have hst := List.mem_append_left stack (List.mem_reverse.2 ha)
      exact hmark (hp.closed e hnodes a ha) (h.found a hst)
    · obtain ⟨s, hs', hxs⟩ := hbelow x hx
      have hx' : x ∈ nodes := hp.walk_subset (hs s hs') x hxs
      exact hmark (hp.closed x hx' a ha) (h.closed x hx a ha)

/-- From an expression alone, exactly the nodes of its walk are visited. -/
theorem mem_iff_of_root (h : Visits [e] [] vs) {x : Expr α} : x ∈ vs ↔ x ∈ e.walk := by
  constructor
  · intro hx
    obtain ⟨s, hs, hxs⟩ := h.below x hx
    exact List.mem_singleton.1 hs ▸ hxs
  · have hroot : e ∈ vs := (h.found e (List.mem_singleton_self e)).resolve_left List.not_mem_nil
    have hclosed : ∀ x ∈ vs, ∀ a ∈ x.children, a ∈ vs :=
      fun x hx a ha => (h.closed x hx a ha).resolve_left List.not_mem_nil
    exact walk_subset_of_closed {x | x ∈ vs} hclosed hroot x

end Visits

/-- The search visits whatever lies below its stack, once each and with its label. It fails with
what is in the way of one of the labels. -/
theorem search_ends {next : NodeId} {nodes : Set (Expr α)} (hp : Population next nodes)
    {stack : List (Expr α)} (hs : ∀ s ∈ stack, s ∈ nodes) (visited : List NodeId)
    (g : Network α) :
    Ends (search stack visited g) (fun g' => ∃ vs : List (Vertex α), g' = vs.foldl Network.visit g ∧
      (∀ v ∈ vs, v.operator.label = .ok v.label) ∧ Visits stack visited (vs.map Vertex.operator))
      fun err => ∃ s ∈ stack, ∃ x ∈ s.walk, x.label = .error err := by
  induction stack, visited, g using search.induct with
  | case1 visited g =>
    rw [search]
    exact Ends.ok ⟨[], rfl, nofun, .nil visited⟩
  | case2 e stack visited g hv ih =>
    rw [search, if_pos hv]
    refine ((ih fun s hst => hs s (List.mem_cons_of_mem e hst)).imp ?_).mapBad ?_
    · rintro _ ⟨vs, rfl, hlabels, h⟩
      exact ⟨vs, rfl, hlabels, h.skip (List.contains_iff_mem.1 hv)⟩
    · rintro err ⟨s, hst, hbad⟩
      exact ⟨s, List.mem_cons_of_mem e hst, hbad⟩
  | case3 e stack visited g hv _ ih =>
    rw [search, if_neg hv]
    cases hlabel : e.label with
    | error err => exact Ends.error ⟨e, List.mem_cons_self, e, mem_walk_self e, hlabel⟩
    | ok label =>
      have hnodes : ∀ s ∈ e.children.reverse ++ stack, s ∈ nodes := by
        intro s hst
        rcases List.mem_append.1 hst with hst | hst
        · exact hp.closed e (hs e List.mem_cons_self) s (List.mem_reverse.1 hst)
        · exact hs s (List.mem_cons_of_mem e hst)
      refine ((ih label hnodes).imp ?_).mapBad ?_
      · rintro _ ⟨vs, rfl, hlabels, h⟩
        exact ⟨⟨e, label⟩ :: vs, rfl, List.forall_mem_cons.2 ⟨hlabel, hlabels⟩,
          h.visit hp hs fun hmem => hv (List.contains_iff_mem.2 hmem)⟩
      · rintro err ⟨s, hst, x, hx, hbad⟩
        rcases List.mem_append.1 hst with hst | hst
        · exact ⟨e, List.mem_cons_self, x,
            mem_walk_trans hx (mem_walk_child (List.mem_reverse.1 hst)), hbad⟩
        · exact ⟨s, List.mem_cons_of_mem e hst, x, hx, hbad⟩

/-- What has been visited from an expression makes up the network of its walk. -/
theorem consists_of_root {e : Expr α} {vs : List (Vertex α)}
    (h : Visits [e] [] (vs.map Vertex.operator)) (hlabels : ∀ v ∈ vs, v.operator.label = .ok v.label) :
    (vs.foldl Network.visit .empty).Consists {i | ∃ x ∈ e.walk, i = x.id}
      {k | ∃ x ∈ e.walk, ∃ t, x.label = .ok t ∧ k = (x.id, ⟨x, t⟩)}
      {d | ∃ x ∈ e.walk, ∃ a ∈ x.children, d = (x.id, a.id)} := by
  have hvisited : ∀ x ∈ e.walk, ∃ v ∈ vs, v.operator = x :=
    fun x hx => List.mem_map.1 (h.mem_iff_of_root.2 hx)
  have hbelow : ∀ v ∈ vs, v.operator ∈ e.walk :=
    fun v hv => h.mem_iff_of_root.1 (List.mem_map_of_mem hv)
  have hnodup := h.nodup
  rw [List.map_map] at hnodup
  refine (Network.consists_of_visits hnodup).congr ?_ ?_ ?_
  · ext i
    constructor
    · rintro ⟨v, hv, rfl | ⟨a, ha, rfl⟩⟩
      · exact ⟨v.operator, hbelow v hv, rfl⟩
      · exact ⟨a, mem_walk_trans (mem_walk_child ha) (hbelow v hv), rfl⟩
    · rintro ⟨x, hx, rfl⟩
      obtain ⟨v, hv, rfl⟩ := hvisited x hx
      exact ⟨v, hv, .inl rfl⟩
  · ext k
    constructor
    · rintro ⟨v, hv, rfl⟩
      exact ⟨v.operator, hbelow v hv, v.label, hlabels v hv, rfl⟩
    · rintro ⟨x, hx, t, ht, rfl⟩
      obtain ⟨v, hv, rfl⟩ := hvisited x hx
      obtain rfl : v.label = t := Except.ok.inj ((hlabels v hv).symm.trans ht)
      exact ⟨v, hv, rfl⟩
  · ext d
    constructor
    · rintro ⟨v, hv, a, ha, rfl⟩
      exact ⟨v.operator, hbelow v hv, a, ha, rfl⟩
    · rintro ⟨x, hx, a, ha, rfl⟩
      obtain ⟨v, hv, rfl⟩ := hvisited x hx
      exact ⟨v, hv, a, ha, rfl⟩

section Root

variable {next : NodeId} {nodes : Set (Expr α)} (hp : Population next nodes) {e : Expr α}
  (he : e ∈ nodes)

include hp he in
/-- The network of an expression consists of the nodes of its walk, with their operators and labels
and with edges to their inputs. There is one exactly if no label shows a long integer. -/
theorem network_ends : Ends e.network
    (fun g => ¬ e.HasLongInt ∧ g.Consists {i | ∃ x ∈ e.walk, i = x.id}
      {k | ∃ x ∈ e.walk, ∃ t, x.label = .ok t ∧ k = (x.id, ⟨x, t⟩)}
      {d | ∃ x ∈ e.walk, ∃ a ∈ x.children, d = (x.id, a.id)})
    (fun err => err = .fault .value ∧ e.HasLongInt) := by
  unfold network
  refine ((search_ends hp (List.forall_mem_singleton.2 he) [] .empty).imp ?_).mapBad ?_
  · rintro _ ⟨vs, rfl, hlabels, h⟩
    refine ⟨?_, consists_of_root h hlabels⟩
    rintro ⟨x, hx, hlong⟩
    obtain ⟨v, hv, rfl⟩ := List.mem_map.1 (h.mem_iff_of_root.2 hx)
    exact (label_ends v.operator).of_ok (hlabels v hv) hlong
  · rintro err ⟨s, hs, x, hx, hbad⟩
    obtain rfl := List.mem_singleton.1 hs
    obtain ⟨hkind, hlong⟩ := (label_ends x).of_error hbad
    exact ⟨hkind, x, hx, hlong⟩

variable {g : Network α} (hg : e.network = .ok g)

include hp he hg in
theorem network_consists : g.Consists {i | ∃ x ∈ e.walk, i = x.id}
    {k | ∃ x ∈ e.walk, ∃ t, x.label = .ok t ∧ k = (x.id, ⟨x, t⟩)}
    {d | ∃ x ∈ e.walk, ∃ a ∈ x.children, d = (x.id, a.id)} :=
  ((network_ends hp he).of_ok hg).2

include hp he hg in
/-- Every node of the network carries its operator. -/
theorem network_nodes : g.nodes = g.vertices.map fun v => (v.operator.id, some v) := by
  have h := network_consists hp he hg
  have hshort := ((network_ends hp he).of_ok hg).1
  have hall : ∀ n ∈ g.nodes, ∃ v : Vertex α, n = (v.operator.id, some v) := by
    intro n hn
    obtain ⟨x, hx, hid⟩ := (h.mem_ids n.1).1 (List.mem_map_of_mem hn)
    cases hlabel : x.label with
    | error err => exact absurd ⟨x, hx, ((label_ends x).of_error hlabel).2⟩ hshort
    | ok t =>
      have hknown : (n.1, some ⟨x, t⟩) ∈ g.nodes :=
        (h.known n.1 ⟨x, t⟩).2 ⟨x, hx, t, hlabel, hid ▸ rfl⟩
      have heq := List.inj_on_of_nodup_map h.nodup_ids hn hknown rfl
      exact ⟨⟨x, t⟩, heq.trans (hid ▸ rfl)⟩
  exact Network.nodes_eq_of_known hall

include hp he hg in
theorem operators_nodup : (g.vertices.map fun v => v.operator.id).Nodup := by
  have h := (network_consists hp he hg).nodup_ids
  rw [Network.ids, network_nodes hp he hg, List.map_map] at h
  exact h

include hp he hg in
theorem mem_vertices {v : Vertex α} :
    v ∈ g.vertices ↔ v.operator ∈ e.walk ∧ v.operator.label = .ok v.label := by
  have hnode : v ∈ g.vertices ↔ (v.operator.id, some v) ∈ g.nodes := by
    rw [network_nodes hp he hg, List.mem_map]
    constructor
    · exact fun hv => ⟨v, hv, rfl⟩
    · rintro ⟨w, hw, heq⟩
      exact Option.some.inj (Prod.mk.inj heq).2 ▸ hw
  rw [hnode, (network_consists hp he hg).known]
  constructor
  · rintro ⟨x, hx, t, ht, heq⟩
    cases (Prod.mk.inj heq).2
    exact ⟨hx, ht⟩
  · rintro ⟨hx, ht⟩
    exact ⟨v.operator, hx, v.label, ht, rfl⟩

include hp he hg in
/-- Every node of the walk has been visited. -/
theorem exists_vertex {x : Expr α} : (∃ v ∈ g.vertices, v.operator = x) ↔ x ∈ e.walk := by
  constructor
  · rintro ⟨v, hv, rfl⟩
    exact ((mem_vertices hp he hg).1 hv).1
  · intro hx
    have hid : x.id ∈ g.ids := ((network_consists hp he hg).mem_ids x.id).2 ⟨x, hx, rfl⟩
    obtain ⟨n, hn, hnx⟩ := List.mem_map.1 hid
    rw [network_nodes hp he hg] at hn
    obtain ⟨v, hv, rfl⟩ := List.mem_map.1 hn
    have hvw := hp.walk_subset he _ ((mem_vertices hp he hg).1 hv).1
    exact ⟨v, hv, hp.identified _ hvw x (hp.walk_subset he x hx) hnx⟩

include hp he hg in
theorem mem_edges {p c : NodeId} : (p, c) ∈ g.edges ↔
    ∃ x ∈ e.walk, ∃ a ∈ x.children, x.id = p ∧ a.id = c := by
  rw [(network_consists hp he hg).mem_edges]
  simp only [Set.mem_ofPred_eq, Prod.mk.injEq, eq_comm]

include hp he hg in
/-- A node has more than one edge to it exactly if it is an input of at least two nodes. -/
theorem one_lt_inDegree_iff {x : Expr α} (hx : x ∈ e.walk) : 1 < g.inDegree x.id ↔
    ∃ p ∈ e.walk, ∃ q ∈ e.walk, p.id ≠ q.id ∧ x ∈ p.children ∧ x ∈ q.children := by
  have hnodes : ∀ y ∈ e.walk, y ∈ nodes := hp.walk_subset he
  -- an input with the number of `x` is `x` itself
  have hinput {p a : Expr α} (hpw : p ∈ e.walk) (ha : a ∈ p.children) (hid : a.id = x.id) :
      x ∈ p.children :=
    hp.identified a (hp.closed p (hnodes p hpw) a ha) x (hnodes x hx) hid ▸ ha
  rw [Network.one_lt_inDegree (network_consists hp he hg).nodup_edges]
  constructor
  · rintro ⟨i, j, hne, hi, hj⟩
    obtain ⟨p, hpw, a, ha, rfl, hid⟩ := (mem_edges hp he hg).1 hi
    obtain ⟨q, hqw, b, hb, rfl, hid'⟩ := (mem_edges hp he hg).1 hj
    exact ⟨p, hpw, q, hqw, hne, hinput hpw ha hid, hinput hqw hb hid'⟩
  · rintro ⟨p, hpw, q, hqw, hne, hxp, hxq⟩
    exact ⟨p.id, q.id, hne, (mem_edges hp he hg).2 ⟨p, hpw, x, hxp, rfl, rfl⟩,
      (mem_edges hp he hg).2 ⟨q, hqw, x, hxq, rfl, rfl⟩⟩

include hp he hg in
/-- The shared nodes are the inputs of at least two nodes. They come in the order of their first
occurrence, each of them once. -/
theorem sharedNodes_eq : ∃ shared, e.sharedNodes = .ok shared ∧
    (∀ x, x ∈ shared ↔
      ∃ p ∈ e.walk, ∃ q ∈ e.walk, p.id ≠ q.id ∧ x ∈ p.children ∧ x ∈ q.children) ∧
    (shared.map id).Pairwise fun i j => (e.walk.map id).idxOf i < (e.walk.map id).idxOf j := by
  refine ⟨_, by rw [sharedNodes, hg]; rfl, fun x => ?_, ?_⟩
  · simp only [List.mem_map, mem_inWalkOrder, List.mem_filter, decide_eq_true_eq]
    constructor
    · rintro ⟨v, ⟨hv, hdegree⟩, rfl⟩
      exact (one_lt_inDegree_iff hp he hg ((mem_vertices hp he hg).1 hv).1).1 hdegree
    · intro hshared
      have hx : x ∈ e.walk := by
        obtain ⟨p, hpw, -, -, -, hxp, -⟩ := hshared
        exact mem_walk_trans (mem_walk_child hxp) hpw
      obtain ⟨v, hv, rfl⟩ := (exists_vertex hp he hg).2 hx
      exact ⟨v, ⟨hv, (one_lt_inDegree_iff hp he hg hx).2 hshared⟩, rfl⟩
  · refine inWalkOrder_pairwise ?_ fun v hv => ?_
    · exact (operators_nodup hp he hg).sublist (List.filter_sublist.map _)
    · exact ((mem_vertices hp he hg).1 (List.mem_of_mem_filter hv)).1

include hp he hg in
/-- The operators are counted once for each node. -/
theorem operatorCounts_eq : ∃ counts, e.operatorCounts = .ok counts ∧
    (counts.map Prod.snd).sum = (e.walk.map id).toFinset.card := by
  refine ⟨_, by rw [operatorCounts, hg]; rfl, ?_⟩
  rw [Text.sum_tally, List.length_map, ← List.length_map fun v : Vertex α => v.operator.id,
    ← List.toFinset_card_of_nodup (operators_nodup hp he hg)]
  congr 1
  ext i
  simp only [List.mem_toFinset, List.mem_map, ← exists_vertex hp he hg]
  constructor
  · rintro ⟨v, hv, rfl⟩
    exact ⟨v.operator, ⟨v, hv, rfl⟩, rfl⟩
  · rintro ⟨_, ⟨v, hv, rfl⟩, rfl⟩
    exact ⟨v, hv, rfl⟩

end Root

end Expr

end RowAlgebra

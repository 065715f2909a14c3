import Mathlib.Data.List.Induction
import RowAlgebra.Expr.Drawing
import RowAlgebra.Proofs.Expr.Admission
import RowAlgebra.Proofs.Expr.Label

/-!
# What a drawing shows

`firstVisits l seen` are the nodes of `l` that have not been seen, each at its first occurrence. A
node is drawn only with the nodes below it, so a node below an undrawn one that is drawn comes with
all that lies below it (`Settled`). Therefore drawing a node draws the first visits of its walk, in
that order, and an edge for each of their inputs; it fails only if one of them has no caption
(`drawFrom_ends`). A caption shows the label and the sides, which can be too long to be written, or
cannot be counted (`caption_ends`).
-/

namespace RowAlgebra

variable {α : Type}

namespace DrawStep

def isNode : DrawStep → Bool
  | node _ _ _ => true
  | edge _ _ => false

def edge? : DrawStep → Option (NodeId × NodeId)
  | node _ _ _ => none
  | edge source target => some (source, target)

end DrawStep

namespace Expr

/-! ## First visits -/

/-- The nodes of a list that have not been seen, each where it comes first. -/
def firstVisits : List (Expr α) → List NodeId → List (Expr α)
  | [], _ => []
  | x :: l, seen =>
    if x.id ∈ seen then firstVisits l seen else x :: firstVisits l (x.id :: seen)

theorem firstVisits_cons {x : Expr α} {l : List (Expr α)} {seen : List NodeId}
    (h : x.id ∉ seen) : firstVisits (x :: l) seen = x :: firstVisits l (x.id :: seen) := by
  rw [firstVisits, if_neg h]

theorem firstVisits_congr {l : List (Expr α)} {seen seen' : List NodeId}
    (h : ∀ i, i ∈ seen ↔ i ∈ seen') : firstVisits l seen = firstVisits l seen' := by
  induction l generalizing seen seen' with
  | nil => rfl
  | cons x l ih =>
    have hcons : ∀ i, i ∈ x.id :: seen ↔ i ∈ x.id :: seen' := fun i => by
      rw [List.mem_cons, List.mem_cons, h]
    simp only [firstVisits, h x.id, ih h, ih hcons]

theorem firstVisits_append (l m : List (Expr α)) (seen : List NodeId) :
    firstVisits (l ++ m) seen =
      firstVisits l seen ++ firstVisits m ((firstVisits l seen).map id ++ seen) := by
  induction l generalizing seen with
  | nil => rfl
  | cons x l ih =>
    by_cases h : x.id ∈ seen
    · rw [List.cons_append, firstVisits, firstVisits, if_pos h, if_pos h, ih]
    · have hperm : ∀ i, i ∈ (firstVisits l (x.id :: seen)).map id ++ x.id :: seen ↔
          i ∈ ((x :: firstVisits l (x.id :: seen)).map id) ++ seen := fun i => by
        simp only [List.map_cons, List.cons_append, List.mem_append, List.mem_cons]
        exact or_left_comm
      rw [List.cons_append, firstVisits_cons h, firstVisits_cons h, ih, firstVisits_congr hperm,
        List.cons_append]

theorem firstVisits_of_seen {l : List (Expr α)} {seen : List NodeId} (h : ∀ x ∈ l, x.id ∈ seen) :
    firstVisits l seen = [] := by
  induction l with
  | nil => rfl
  | cons x l ih =>
    obtain ⟨hx, hl⟩ := List.forall_mem_cons.1 h
    rw [firstVisits, if_pos hx, ih hl]

theorem firstVisits_sublist (l : List (Expr α)) (seen : List NodeId) :
    (firstVisits l seen).Sublist l := by
  induction l generalizing seen with
  | nil => exact .slnil
  | cons x l ih =>
    unfold firstVisits
    split
    · exact (ih seen).cons x
    · exact (ih _).cons_cons x

/-- Every node of the list has been seen, or is visited. -/
theorem seen_or_visited {l : List (Expr α)} {seen : List NodeId} {x : Expr α} (h : x ∈ l) :
    x.id ∈ seen ∨ x.id ∈ (firstVisits l seen).map id := by
  induction l generalizing seen with
  | nil => cases h
  | cons y l ih =>
    by_cases hy : y.id ∈ seen
    · rw [firstVisits, if_pos hy]
      rcases List.mem_cons.1 h with rfl | h
      · exact .inl hy
      · exact ih h
    · rw [firstVisits_cons hy, List.map_cons, List.mem_cons]
      rcases List.mem_cons.1 h with rfl | h
      · exact .inr (.inl rfl)
      · rcases @ih (y.id :: seen) h with hx | hx
        · exact (List.mem_cons.1 hx).elim (fun hid => .inr (.inl hid)) .inl
        · exact .inr (.inr hx)

/-- The first visits to all nodes of a list are as their numbers without repetitions. -/
theorem ids_firstVisits (l : List (Expr α)) :
    (firstVisits l []).map id = (l.map id).eraseDups := by
  induction l using List.reverseRecOn with
  | nil => rfl
  | append_singleton l x ih =>
    rw [firstVisits_append, List.append_nil, List.map_append, List.map_append,
      List.eraseDups_append, ih]
    congr 1
    generalize l.map id = ids
    by_cases hx : x.id ∈ ids <;> simp [firstVisits, List.removeAll, hx, List.eraseDups_cons]

/-! ## Captions -/

theorem count_ends (s : Side) : Ends s.count (fun n => s = .ofLength n)
    (fun err => err = .fault .overflow ∧ s.isCounted = false) := by
  cases hcount : s.count with
  | ok n => exact Ends.ok (Side.count_eq_ok_iff.1 hcount)
  | error err =>
    unfold Side.count at hcount
    split at hcount
    · cases hcount
    · next h =>
      cases hcount
      exact Ends.error ⟨rfl, Bool.eq_false_iff.2 h⟩

/-- Sides that cannot be counted make no shape. -/
theorem shape_of_uncounted {e : Expr α}
    (h : e.schema.rows.isCounted = false ∨ e.schema.columns.isCounted = false) :
    ∃ error, e.shape = .error error := by
  cases hshape : e.shape with
  | error error => exact ⟨error, rfl⟩
  | ok shape =>
    obtain ⟨hrows, hcolumns⟩ := Schema.shape_eq_ok_iff.1 hshape
    rw [hrows, hcolumns] at h
    exact absurd h (by simp [Side.ofLength])

/-- Whether one of the sides of a node has too many digits. -/
def IsLongSided (e : Expr α) : Prop :=
  Decimal.isLong e.nrow = true ∨ Decimal.isLong e.ncol = true

instance (e : Expr α) : Decidable e.IsLongSided :=
  inferInstanceAs (Decidable (_ ∨ _))

/-- What is in the way of the caption of a node: an integer of too many digits in its label or
among its sides, or a side that cannot be counted. -/
def Uncaptioned (e : Expr α) (err : Error) : Prop :=
  (err = .fault .value ∧ (e.ShowsLongInt ∨ e.IsLongSided)) ∨
    (err = .fault .overflow ∧ ∃ error, e.shape = .error error)

/-- **A caption** can be written if nothing is in the way. -/
theorem caption_ends (e : Expr α) : Ends e.caption
    (fun _ => ¬ e.ShowsLongInt ∧ (∃ shape, e.shape = .ok shape) ∧ ¬ e.IsLongSided)
    e.Uncaptioned := by
  have hcount (s : Side) (hs : s = e.schema.rows ∨ s = e.schema.columns) :
      Ends s.count (fun n => s = .ofLength n) e.Uncaptioned := by
    refine (count_ends s).mapBad fun err h => .inr ⟨h.1, shape_of_uncounted ?_⟩
    rcases hs with rfl | rfl
    · exact .inl h.2
    · exact .inr h.2
  refine ((label_ends e).mapBad fun _ h => .inl ⟨h.1, .inl h.2⟩).bind fun label hlabel => ?_
  suffices hsides : Ends e.sides (fun _ => (∃ shape, e.shape = .ok shape) ∧ ¬ e.IsLongSided)
      e.Uncaptioned from hsides.bind fun _ h => Ends.ok ⟨hlabel, h⟩
  refine (hcount _ (.inl rfl)).bind fun m hm => ?_
  have hnrow : e.nrow = m := congrArg Side.length hm
  refine ((Decimal.intText_ends m).mapBad fun _ h => .inl ⟨h.1, .inr (.inl (hnrow ▸ h.2))⟩).bind
    fun _ hshort => ?_
  refine (hcount _ (.inr rfl)).bind fun n hn => ?_
  have hncol : e.ncol = n := congrArg Side.length hn
  refine ((Decimal.intText_ends n).mapBad fun _ h => .inl ⟨h.1, .inr (.inr (hncol ▸ h.2))⟩).bind
    fun _ hshort' => Ends.ok ⟨⟨⟨m, n⟩, Schema.shape_eq_ok_iff.2 ⟨hm, hn⟩⟩, ?_⟩
  rintro (hlong | hlong)
  · cases hshort.symm.trans (hnrow ▸ hlong)
  · cases hshort'.symm.trans (hncol ▸ hlong)

/-! ## What is drawn -/

/-- The edges from a node to its inputs, one for each position. -/
def inputEdges (e : Expr α) : List (NodeId × NodeId) :=
  e.children.map fun a => (e.id, a.id)

/-- Some steps draw the nodes `new`, in this order, and their edges to their inputs. -/
structure Draws (new : List (Expr α)) (steps : List DrawStep) : Prop where
  nodes : new.mapM drawNode = .ok (steps.filter DrawStep.isNode)
  edges : (steps.filterMap DrawStep.edge?).Perm (new.flatMap inputEdges)

/-- The drawing of some new nodes, after which these are drawn. -/
structure DrawsAfter (drawn : List NodeId) (new : List (Expr α))
    (r : List DrawStep × List NodeId) : Prop extends Draws new r.1 where
  drawn : ∀ i, i ∈ r.2 ↔ i ∈ new.map id ++ drawn

/-- Some node of a list cannot be drawn, since it has no caption. -/
def Undrawable (new : List (Expr α)) (error : Error) : Prop :=
  ∃ x ∈ new, x.caption = .error error

theorem DrawsAfter.none (drawn : List NodeId) : DrawsAfter drawn ([] : List (Expr α)) ([], drawn) :=
  ⟨⟨rfl, .nil⟩, fun _ => Iff.rfl⟩

/-- Only nodes with a caption are drawn. -/
theorem Draws.caption_of_mem {new : List (Expr α)} {steps : List DrawStep} (h : Draws new steps) :
    ∀ x ∈ new, ∃ t, x.caption = .ok t := by
  have hall : List.Forall₂ (fun x step => drawNode x = .ok step) new _ :=
    (Ends.mapM fun x _ => Ends.self (drawNode x)).of_ok h.nodes
  refine ((List.forall₂_and_left new _).1 (hall.imp fun x step hstep => ⟨?_, hstep⟩)).1
  obtain ⟨t, ht, -⟩ := bind_eq_ok_iff.1 hstep
  exact ⟨t, ht⟩

theorem Undrawable.mono {new new' : List (Expr α)} {error : Error} (h : Undrawable new error)
    (hs : new ⊆ new') : Undrawable new' error := by
  obtain ⟨x, hx, hcaption⟩ := h
  exact ⟨x, hs hx, hcaption⟩

/-- Drawing begins with the node itself. -/
theorem drawNode_then {e : Expr α} {drawn : List NodeId} {new : List (Expr α)}
    {f : DrawStep → Except Error (List DrawStep × List NodeId)}
    (hf : ∀ node, e.drawNode = .ok node → node.isNode = true → node.edge? = none →
      Ends (f node) (DrawsAfter drawn (e :: new)) (Undrawable (e :: new))) :
    Ends (e.drawNode >>= f) (DrawsAfter drawn (e :: new)) (Undrawable (e :: new)) := by
  unfold drawNode at hf ⊢
  cases hcaption : e.caption with
  | error error => exact Ends.error ⟨e, List.mem_cons_self, hcaption⟩
  | ok t =>
    rw [hcaption] at hf
    exact hf _ rfl rfl rfl

theorem mapM_drawNode_cons {e : Expr α} {new : List (Expr α)} {node : DrawStep}
    {steps : List DrawStep} (he : e.drawNode = .ok node) (h : new.mapM drawNode = .ok steps) :
    (e :: new).mapM drawNode = .ok (node :: steps) := by
  rw [List.mapM_cons, he, h]
  rfl

theorem mapM_drawNode_append {new new' : List (Expr α)} {steps steps' : List DrawStep}
    (h : new.mapM drawNode = .ok steps) (h' : new'.mapM drawNode = .ok steps') :
    (new ++ new').mapM drawNode = .ok (steps ++ steps') := by
  rw [List.mapM_append, h, h']
  rfl

/-- Draws a node, unless that has been done. -/
def drawNew (drawn : List NodeId) (e : Expr α) : Except Error (List DrawStep × List NodeId) :=
  if drawn.contains e.id then pure ([], drawn) else e.drawFrom drawn

theorem drawFrom_unary (drawn : List NodeId) (i : NodeId) (op : UnaryOp α) (a : Expr α) :
    (unary i op a).drawFrom drawn = (do
      let node ← drawNode (unary i op a)
      let r ← a.drawNew (i :: drawn)
      return (node :: .edge i a.id :: r.1, r.2)) := by
  rw [drawFrom]
  refine bind_congr fun node => ?_
  dsimp only
  unfold drawNew
  split <;> rfl

theorem drawFrom_binary (drawn : List NodeId) (i : NodeId) (op : BinaryOp) (a b : Expr α) :
    (binary i op a b).drawFrom drawn = (do
      let node ← drawNode (binary i op a b)
      let l ← a.drawNew (i :: drawn)
      let r ← b.drawNew l.2
      return (node :: .edge i a.id :: l.1 ++ .edge i b.id :: r.1, r.2)) := by
  rw [drawFrom]
  refine bind_congr fun node => ?_
  dsimp only
  unfold drawNew
  by_cases ha : (i :: drawn).contains a.id = true
  · rw [if_pos ha, if_pos ha]
    refine bind_congr fun l => ?_
    split <;> rfl
  · rw [if_neg ha, if_neg ha]
    refine bind_congr fun l => ?_
    split <;> rfl

/-- Whatever lies below a node that is drawn, is drawn, too, as far as it belongs to `e`. -/
def Settled (drawn : List NodeId) (e : Expr α) : Prop :=
  ∀ x ∈ e.walk, x.id ∈ drawn → ∀ y ∈ x.walk, y.id ∈ drawn

section Population

variable {next : NodeId} {nodes : Set (Expr α)} (hp : Population next nodes)
  {drawn drawn' : List NodeId} {p a b : Expr α}

include hp in
/-- Nothing that lies below a node has its number. -/
theorem id_ne_of_below (hn : p ∈ nodes) (ha : a ∈ p.children) {x : Expr α} (hx : x ∈ a.walk) :
    x.id ≠ p.id := by
  intro hid
  have hxn : x ∈ nodes := hp.walk_subset (hp.closed p hn a ha) x hx
  obtain rfl := hp.identified x hxn p hn hid
  exact Nat.lt_irrefl _ ((size_child_lt ha).trans_le (size_le_of_mem_walk hx))

namespace Settled

theorem congr (h : Settled drawn a) (hd : ∀ i, i ∈ drawn' ↔ i ∈ drawn) : Settled drawn' a :=
  fun x hx hmem y hy => (hd y.id).2 (h x hx ((hd x.id).1 hmem) y hy)

include hp in
/-- Below a node that has just been drawn nothing has changed. -/
theorem child (h : Settled drawn p) (hn : p ∈ nodes) (ha : a ∈ p.children) :
    Settled (p.id :: drawn) a := by
  intro x hx hmem y hy
  have hxp : x ∈ p.walk := mem_walk_trans hx (mem_walk_child ha)
  have hxd : x.id ∈ drawn :=
    (List.mem_cons.1 hmem).resolve_left (id_ne_of_below hp hn ha hx)
  exact List.mem_cons_of_mem _ (h x hxp hxd y hy)

include hp in
/-- What is drawn of one expression does not unsettle another one. -/
theorem after (h : Settled drawn b) (ha : a ∈ nodes) (hb : b ∈ nodes) :
    Settled ((firstVisits a.walk drawn).map id ++ drawn) b := by
  intro x hx hmem y hy
  rcases List.mem_append.1 hmem with hmem | hmem
  · obtain ⟨z, hz, hid⟩ := List.mem_map.1 hmem
    have hza : z ∈ a.walk := (firstVisits_sublist a.walk drawn).subset hz
    obtain rfl :=
      hp.identified z (hp.walk_subset ha z hza) x (hp.walk_subset hb x hx) hid
    exact List.mem_append.2 (seen_or_visited (mem_walk_trans hy hza)).symm
  · exact List.mem_append_right _ (h x hx hmem y hy)

end Settled

/-- If a node that has not been drawn is drawn along its walk, then so is any node. -/
theorem drawNew_ends (h : Settled drawn a)
    (hfrom : a.id ∉ drawn → Ends (a.drawFrom drawn) (DrawsAfter drawn (firstVisits a.walk drawn))
      (Undrawable (firstVisits a.walk drawn))) :
    Ends (a.drawNew drawn) (DrawsAfter drawn (firstVisits a.walk drawn))
      (Undrawable (firstVisits a.walk drawn)) := by
  unfold drawNew
  split
  · next hd =>
    rw [firstVisits_of_seen (h a (mem_walk_self a) (List.contains_iff_mem.1 hd))]
    exact Ends.ok (.none drawn)
  · next hd => exact hfrom fun hmem => hd (List.contains_iff_mem.2 hmem)

/-- A leaf is drawn on its own. -/
theorem drawLeaf_ends {e : Expr α} (hc : e.children = []) (hw : e.walk = [e])
    (hd : e.drawFrom drawn = do return ([← e.drawNode], e.id :: drawn)) (hnew : e.id ∉ drawn) :
    Ends (e.drawFrom drawn) (DrawsAfter drawn (firstVisits e.walk drawn))
      (Undrawable (firstVisits e.walk drawn)) := by
  rw [hw, firstVisits_cons hnew, hd]
  refine drawNode_then fun node hdraw hnode hedge => Ends.ok ⟨⟨?_, ?_⟩, fun _ => Iff.rfl⟩
  · rw [List.filter_cons_of_pos hnode]
    exact mapM_drawNode_cons hdraw rfl
  · rw [List.filterMap_cons_none hedge, List.flatMap_cons, inputEdges, hc]
    exact .nil

include hp in
/-- A node is drawn along its walk, each node at its first visit. -/
theorem drawFrom_ends {e : Expr α} (he : e ∈ nodes) (h : Settled drawn e) (hnew : e.id ∉ drawn) :
    Ends (e.drawFrom drawn) (DrawsAfter drawn (firstVisits e.walk drawn))
      (Undrawable (firstVisits e.walk drawn)) := by
  induction e generalizing drawn with
  | checkpoint i c => exact drawLeaf_ends rfl rfl rfl hnew
  | foreign i shape => exact drawLeaf_ends rfl rfl rfl hnew
  | unary i op a ih =>
    have hchild : a ∈ (unary i op a).children := List.mem_singleton_self a
    have hbelow := drawNew_ends (h.child hp he hchild) (ih (hp.input he) (h.child hp he hchild))
    rw [walk_unary, firstVisits_cons hnew, drawFrom_unary]
    refine drawNode_then fun node hdraw hnode hedge => ?_
    refine (hbelow.mapBad fun _ hbad => hbad.mono (List.subset_cons_self _ _)).bind fun r hr => ?_
    refine Ends.ok ⟨⟨?_, ?_⟩, fun k => ?_⟩
    · rw [List.filter_cons_of_pos hnode]
      exact mapM_drawNode_cons hdraw hr.nodes
    · rw [List.filterMap_cons_none hedge]
      exact hr.edges.cons _
    · rw [hr.drawn]
      simp only [List.map_cons, List.cons_append, List.mem_append, List.mem_cons]
      exact or_left_comm
  | binary i op a b iha ihb =>
    have hleft : a ∈ (binary i op a b).children := by simp [children]
    have hright : b ∈ (binary i op a b).children := by simp [children]
    have hsettled := (h.child hp he hright).after hp (hp.left he) (hp.right he)
    have hbelow := drawNew_ends (h.child hp he hleft) (iha (hp.left he) (h.child hp he hleft))
    rw [walk_binary, firstVisits_cons hnew, firstVisits_append, drawFrom_binary]
    refine drawNode_then fun node hdraw hnode hedge => ?_
    refine (hbelow.mapBad fun _ hbad => hbad.mono ?_).bind fun l hl => ?_
    · exact List.subset_cons_of_subset _ (List.subset_append_left _ _)
    have hbeside := drawNew_ends (hsettled.congr hl.drawn)
      (ihb (hp.right he) (hsettled.congr hl.drawn))
    rw [firstVisits_congr hl.drawn] at hbeside
    refine (hbeside.mapBad fun _ hbad => hbad.mono ?_).bind fun r hr => ?_
    · exact List.subset_cons_of_subset _ (List.subset_append_right _ _)
    refine Ends.ok ⟨⟨?_, ?_⟩, fun k => ?_⟩
    · rw [List.cons_append, List.filter_cons_of_pos hnode]
      refine mapM_drawNode_cons hdraw ?_
      simp only [List.cons_append, List.filter_append, List.filter_cons, DrawStep.isNode,
        Bool.false_eq_true, if_false]
      exact mapM_drawNode_append hl.nodes hr.nodes
    · rw [List.cons_append, List.filterMap_cons_none hedge, List.cons_append, List.flatMap_cons,
        List.flatMap_append]
      simp only [List.filterMap_cons, DrawStep.edge?, List.filterMap_append]
      refine List.Perm.cons _ ?_
      exact List.perm_middle.trans ((hl.edges.append hr.edges).cons _)
    · simp only [hr.drawn, List.mem_append, hl.drawn, List.map_cons, List.map_append,
        List.cons_append, List.mem_cons]
      tauto

include hp in
/-- **A drawing** has the nodes of the walk, each where it comes first, and one edge for each of
their inputs. There is one exactly if all nodes have a caption. -/
theorem drawing_ends {e : Expr α} (he : e ∈ nodes) :
    Ends e.drawing (Draws (firstVisits e.walk [])) (Undrawable (firstVisits e.walk [])) := by
  have hsettled : Settled [] e := nofun
  unfold drawing
  exact (drawFrom_ends hp he hsettled nofun).bind fun r hr => Ends.ok hr.toDraws

include hp in
theorem mem_firstVisits {e x : Expr α} (he : e ∈ nodes) :
    x ∈ firstVisits e.walk [] ↔ x ∈ e.walk := by
  refine ⟨fun h => (firstVisits_sublist e.walk []).subset h, fun h => ?_⟩
  obtain ⟨y, hy, hid⟩ := List.mem_map.1 ((seen_or_visited h).resolve_left List.not_mem_nil)
  have hyw : y ∈ e.walk := (firstVisits_sublist e.walk []).subset hy
  exact hp.identified y (hp.walk_subset he y hyw) x (hp.walk_subset he x h) hid ▸ hy

end Population

end Expr

end RowAlgebra

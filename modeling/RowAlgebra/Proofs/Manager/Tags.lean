import RowAlgebra.Proofs.Exec.Failures
import RowAlgebra.Proofs.Manager.Run
import RowAlgebra.Proofs.Plan.Metadata
import RowAlgebra.Proofs.Plan.Tags
import RowAlgebra.Proofs.Tag.Source

/-!
# Tags over whole runs

All checkpoints of a run have known tags of 64 bits (`Run.tag_isWord`). As long as no tag is drawn
twice, and declared block functions leave the keys alone that they are handed, each drawn tag stands
for one layout: that of the checkpoint which it was drawn for. `Stage.Sound L s` says so of a stage,
where `L` maps tags to layouts. Every act keeps it, for a map that may know one more tag
(`Stage.Sound.step`), and so does every run (`Run.sound`). Hence expressions with equal tags have
equal partition keys, and no product that is zipped is ever refused (`Run.tags_sound`). A block
function that turns around the list which it is handed passes the check of its keys, and then such a
product fails (`Run.tags_unsound`).
-/

namespace RowAlgebra

variable {α : Type}

theorem Spread.congr {L L' : Layouts} {t : Tag} {h : Handle α} (hs : Spread L t h)
    (ht : L' t = L t) : Spread L' t h :=
  ⟨hs.valued, fun hk => (hs.layout hk).trans ht.symm⟩

/-! ## Keys of leaves -/

namespace Act

/-- Whether the keys that an act hands in have values. -/
def HasValues : Act α → Prop
  | .parallelize _ _ keys _ => ∀ given ∈ keys, ∀ k ∈ given.keys, k.same k = true
  | _ => True

end Act

theorem Managed.distribute_valued {m : Dense α} {partitions : Int} {keys : Option GivenKeys}
    (h : ∀ given ∈ keys, ∀ k ∈ given.keys, k.same k = true) {c : Collection α}
    (hc : distribute m partitions keys = .ok c) : c.Valued := by
  have hkeys : ∀ k ∈ (rowKeys m keys).keys, k.value?.isSome = true := by
    intro k hk
    cases keys with
    | none =>
      obtain ⟨i, -, rfl⟩ := List.mem_map.1 hk
      rfl
    | some ks => exact Key.same_self_iff.1 (h ks rfl k hk)
  obtain ⟨-, -, rfl⟩ := distribute_eq_ok hc
  intro k hk
  obtain ⟨entry, he, rfl⟩ := List.mem_map.1 hk
  exact hkeys _ (List.of_mem_zip (Collection.mem_cut he)).1

/-! ## Declared block functions -/

/-- Whether the block functions that an expression declares to keep the keys leave the keys alone that
they are handed. -/
def Expr.LeavesHanded (blocks : BlockCatalogue α) (e : Expr α) : Prop :=
  ∀ fn ncol, .mapBlock fn ncol true ∈ e.unaries → (blocks fn).LeavesHanded

/-- Whether the declared block functions of a request leave the keys alone that they are handed. -/
def Act.LeavesHanded : Act α → Prop
  | .checkpoint blocks e _ => e.LeavesHanded blocks
  | _ => True

theorem Expr.Planned.keepsLayouts [Cell α] {e plan : Expr α} (h : e.Planned plan)
    {blocks : BlockCatalogue α} (hblocks : e.LeavesHanded blocks) (fn : BlockName) (ncol : Int)
    (hop : .mapBlock fn ncol true ∈ plan.unaries) : (blocks fn).KeepsLayouts :=
  (hblocks fn ncol ((h.mem_unaries hop).resolve_right nofun)).keepsLayouts

/-! ## The invariant -/

/-- A checkpoint that lies where its tag says, which has been drawn. -/
structure Stage.Placed (L : Layouts) (s : Stage α) (c : Checkpoint α) : Prop where
  drawn : c.tag ∈ s.drawn
  spread : Spread L c.tag c.rows

structure Stage.Sound (L : Layouts) (s : Stage α) : Prop extends s.Housed where
  placed : ∀ i c, .checkpoint i c ∈ s.nodes → s.Placed L c

namespace Stage

theorem Placed.mono {L L' : Layouts} {s t : Stage α} {c : Checkpoint α} (h : s.Placed L c)
    (hd : s.drawn ⊆ t.drawn) (hL : ∀ tag ∈ s.drawn, L' tag = L tag) : t.Placed L' c :=
  ⟨hd h.drawn, h.spread.congr (hL _ h.drawn)⟩

/-! ## Drawing -/

theorem absorb_drawn_next (s : Stage α) {answer : Except Error (Expr α) × Managed α}
    (h : answer.2.substrate.tags = s.managed.substrate.tags.next.2) :
    (s.absorb answer).drawn = s.drawn ++ [s.managed.substrate.tags.next.1] :=
  if_neg (h ▸ TagSource.next_ne _)

theorem drawn_prefix_absorb (s : Stage α) (answer : Except Error (Expr α) × Managed α) :
    s.drawn <+: (s.absorb answer).drawn := by
  unfold absorb
  dsimp only
  split
  · exact List.prefix_refl _
  · exact List.prefix_append ..

theorem build_drawn (s : Stage α) (b : Build (Expr α)) : (s.build b).drawn = s.drawn := by
  unfold build
  split <;> rfl

theorem drawn_prefix_step [Cell α] (s : Stage α) (act : Act α) : s.drawn <+: (s.step act).drawn := by
  cases act with
  | parallelize | checkpoint => exact s.drawn_prefix_absorb _
  | unary | binary | foreign => exact (s.build_drawn _).symm ▸ List.prefix_refl _
  | forget | clear | release => exact List.prefix_refl _

/-! ## One act -/

variable {L : Layouts} {s t : Stage α}

/-- A stage stays sound if the checkpoints that it has gained lie where their tags say. -/
theorem Sound.gain {L' : Layouts} (hs : s.Sound L) (ht : t.Housed) (hd : s.drawn ⊆ t.drawn)
    (hL : ∀ tag ∈ s.drawn, L' tag = L tag)
    (hnew : ∀ i c, .checkpoint i c ∈ t.nodes → .checkpoint i c ∈ s.nodes ∨ t.Placed L' c) :
    t.Sound L' := by
  refine ⟨ht, fun i c hc => ?_⟩
  rcases hnew i c hc with hold | hplaced
  · exact (hs.placed i c hold).mono hd hL
  · exact hplaced

/-- A checkpoint whose rows lie where their tag says may join, under this tag or a fresh one. -/
theorem Sound.tagged (hs : s.Sound L) {answer : Except Error (Expr α) × Managed α} {tag : Tag}
    {n : NodeId} {c : Checkpoint α} (h : s.managed.Tagged answer.2 tag c)
    (hok : answer.1 = .ok (.checkpoint n c)) (hhoused : (s.absorb answer).Housed)
    (hnodup : (s.absorb answer).drawn.Nodup) (hspread : Spread L tag c.rows)
    (hknown : tag ≠ .unknown → tag ∈ s.drawn) : ∃ L', (s.absorb answer).Sound L' := by
  have hd := (s.drawn_prefix_absorb answer).subset
  have hcases : ∀ i c', .checkpoint i c' ∈ (s.absorb answer).nodes →
      .checkpoint i c' ∈ s.nodes ∨ c' = c := by
    intro i c' hc'
    rw [s.absorb_nodes_ok hok] at hc'
    rcases Set.mem_insert_iff.1 hc' with hnew | hold
    · cases hnew
      exact .inr rfl
    · exact .inl hold
  by_cases ht : tag = .unknown
  · -- the rows get a fresh tag, which stands for their layout from now on
    have htag : c.tag = s.managed.substrate.tags.next.1 := h.tag.trans (if_pos ht)
    have htags := h.tags.trans (if_pos ht)
    have hdrawn := s.absorb_drawn_next htags
    have hfresh : c.tag ∉ s.drawn := by
      rw [hdrawn, ← htag] at hnodup
      exact fun hmem => (List.nodup_append.1 hnodup).2.2 _ hmem _ (List.mem_singleton_self _) rfl
    refine ⟨Function.update L c.tag c.rows.collection.layout, hs.gain hhoused hd ?_ ?_⟩
    · refine fun tag' hmem => Function.update_of_ne ?_ _ _
      rintro rfl
      exact hfresh hmem
    · refine fun i c' hc' => (hcases i c' hc').imp_right ?_
      rintro rfl
      refine ⟨?_, hspread.valued, fun _ => ?_⟩
      · rw [hdrawn, ← htag]
        exact List.mem_append_right _ (List.mem_singleton_self _)
      · rw [Function.update_self]
  · have htag : c.tag = tag := h.tag.trans (if_neg ht)
    refine ⟨L, hs.gain hhoused hd (fun _ _ => rfl) fun i c' hc' => (hcases i c' hc').imp_right ?_⟩
    rintro rfl
    exact ⟨htag ▸ hd (hknown ht), htag ▸ hspread⟩

theorem Sound.built (hs : s.Sound L) {b : Build (Expr α)} (hhoused : (s.build b).Housed)
    (hb : ∀ e n, b s.next = .ok (e, n) → ∀ i c, e ≠ .checkpoint i c) : (s.build b).Sound L := by
  exact hs.gain hhoused (s.build_drawn b ▸ List.Subset.refl _) (fun _ _ => rfl)
    fun i c hc => .inl ((s.build_eq hb).2.2 i c hc)

theorem Sound.leaves (hs : s.Sound L) {e : Expr α} (he : e ∈ s.nodes) {i : NodeId}
    {c : Checkpoint α} (hc : .checkpoint i c ∈ e.walk) : s.Placed L c :=
  hs.placed i c (hs.population.walk_subset he _ hc)

section Acts

variable [Cell α]

/-- What a part of the plan of a node computes lies where the tag of the part says. -/
theorem Sound.exec_spread (hs : s.Sound L) {e plan x : Expr α} (he : e ∈ s.nodes)
    (hplan : e.Planned plan) (hx : x ∈ plan.walk) {blocks : BlockCatalogue α}
    (hblocks : e.LeavesHanded blocks) (call : Nat) :
    Ensures (x.exec blocks call).result (Spread L x.tag) := by
  have hunaries := Expr.unaries_subset_of_mem_walk hx
  refine Expr.exec_spread (fun fn ncol hop => ?_) (fun i c hc => ?_) call
  · exact hplan.keepsLayouts hblocks fn ncol (hunaries hop)
  · exact (hs.leaves he (hplan.leaf_mem (Expr.mem_walk_trans hc hx))).spread

theorem Sound.planned (hs : s.Sound L) {e plan : Expr α} (he : e ∈ s.nodes) {n n' : NodeId}
    (hn : s.next ≤ n) (h : e.optimize n = .ok (plan, n')) : e.Planned plan := by
  obtain ⟨_, -, -, -, hplan⟩ := Expr.planned_of_optimize (hs.population.mono hn) he h
  exact hplan

theorem Sound.checkpoint (hs : s.Sound L) {blocks : BlockCatalogue α} {e : Expr α}
    (he : e ∈ s.nodes) (hblocks : e.LeavesHanded blocks) (level : StorageLevel)
    (hnodup : (s.absorb (s.managed.checkpoint blocks e level)).drawn.Nodup) :
    ∃ L', (s.absorb (s.managed.checkpoint blocks e level)).Sound L' := by
  have hhoused := hs.toHoused.checkpoint blocks he level
  have hd := (s.drawn_prefix_absorb (s.managed.checkpoint blocks e level)).subset
  rcases s.managed.checkpoint_cases blocks e level with
    ⟨i, c, rfl, h⟩ | ⟨entry, hentry, -, h⟩ | ⟨error, herror, h⟩ | ⟨plan, n, c, hok, h⟩
  · rw [h] at hd hhoused ⊢
    refine ⟨L, hs.gain hhoused hd (fun _ _ => rfl) fun j c' hc' => .inl ?_⟩
    exact Set.insert_eq_of_mem he ▸ hc'
  · rw [h] at hd hhoused ⊢
    refine ⟨L, hs.gain hhoused hd (fun _ _ => rfl) fun j c' hc' => .inl ?_⟩
    exact Set.insert_eq_of_mem (hs.entries entry hentry) ▸ hc'
  · exact ⟨L, hs.gain hhoused hd (fun _ _ => rfl) fun j c' hc' =>
      .inl (s.absorb_nodes_error herror ▸ hc')⟩
  · have hplan := hs.planned he (Nat.le_refl _) h.optimize
    have hspread := (hs.exec_spread he hplan (Expr.mem_walk_self _) hblocks _).of_ok h.exec
    refine hs.tagged h.toTagged hok hhoused hnodup ⟨hspread.valued, hspread.layout⟩ fun ht => ?_
    obtain ⟨i, leaf, hleaf, htag⟩ := Expr.exists_leaf_of_tag ht
    exact htag ▸ (hs.leaves he (hplan.leaf_mem hleaf)).drawn

theorem Sound.parallelize (hs : s.Sound L) (matrix : InCore α) (partitions : Int)
    {keys : Option GivenKeys} (hkeys : ∀ given ∈ keys, ∀ k ∈ given.keys, k.same k = true)
    (level : StorageLevel)
    (hnodup : (s.absorb (s.managed.parallelize matrix partitions keys level)).drawn.Nodup) :
    ∃ L', (s.absorb (s.managed.parallelize matrix partitions keys level)).Sound L' := by
  have hhoused := hs.toHoused.parallelize matrix partitions keys level
  rcases s.managed.parallelize_cases matrix partitions keys level with
    ⟨error, h⟩ | ⟨m, n, c, hok, h⟩
  · rw [h] at hhoused ⊢
    exact ⟨L, hs.gain hhoused (s.drawn_prefix_absorb _).subset (fun _ _ => rfl)
      fun j c' hc' => .inl hc'⟩
  · have hvalued := Managed.distribute_valued hkeys h.rows
    exact hs.tagged h.toTagged hok hhoused hnodup (.unknown hvalued) fun ht => absurd rfl ht

theorem Sound.step (hs : s.Sound L) (act : Act α) (on : act.IsOn s.nodes) (hv : act.HasValues)
    (hblocks : act.LeavesHanded) (hnodup : (s.step act).drawn.Nodup) :
    ∃ L', (s.step act).Sound L' := by
  have hhoused := hs.toHoused.step act on
  cases act with
  | parallelize matrix partitions keys level => exact hs.parallelize matrix partitions hv level hnodup
  | checkpoint blocks e level => exact hs.checkpoint on hblocks level hnodup
  | unary op a =>
    refine ⟨L, hs.built (b := Expr.ofUnary op a) hhoused fun e n h i c => ?_⟩
    rw [(Expr.ofUnary_eq_ok h).2.1]
    nofun
  | binary op a b =>
    refine ⟨L, hs.built (b := Expr.ofBinary op a b) hhoused fun e n h i c => ?_⟩
    rw [(Expr.ofBinary_eq_ok h).2.1]
    nofun
  | foreign shape =>
    have hforeign : ∀ e n, (do return .foreign (← Build.fresh) shape : Build (Expr α)) s.next =
        .ok (e, n) → ∀ i c, e ≠ .checkpoint i c := by
      intro e n h i c
      cases h
      nofun
    exact ⟨L, hs.built (hs.toHoused.foreign shape) hforeign⟩
  | forget | clear | release =>
    exact ⟨L, hs.gain hhoused (List.Subset.refl _) (fun _ _ => rfl) fun _ _ hc => .inl hc⟩

/-! ## Plans of a sound stage -/

variable {blocks blocks' : BlockCatalogue α} {call call' : Nat}
  {g g' : Handle α}

/-- What is computed of two expressions with equal known tags has equal partition keys. -/
theorem Sound.samePartitionKeys (hs : s.Sound L) {e e' plan plan' : Expr α} (he : e ∈ s.nodes)
    (he' : e' ∈ s.nodes) (htag : e.tag = e'.tag) (hknown : e.tag ≠ .unknown)
    (hplan : e.Planned plan) (hplan' : e'.Planned plan') (hblocks : e.LeavesHanded blocks)
    (hblocks' : e'.LeavesHanded blocks') (hg : (plan.exec blocks call).result = .ok g)
    (hg' : (plan'.exec blocks' call').result = .ok g') :
    g.collection.samePartitionKeys g'.collection = true := by
  have hspread := (hs.exec_spread he hplan (Expr.mem_walk_self _) hblocks call).of_ok hg
  have hspread' := (hs.exec_spread he' hplan' (Expr.mem_walk_self _) hblocks' call').of_ok hg'
  rw [hplan.tag_eq hknown] at hspread
  rw [hplan'.tag_eq (htag ▸ hknown), ← htag] at hspread'
  exact hspread.samePartitionKeys hspread' hknown

/-- A product of a plan that is told to zip its operands does not complain of them. -/
theorem Sound.zips [OrdinaryCell α] (hs : s.Sound L) {e plan : Expr α} (he : e ∈ s.nodes)
    (hplan : e.Planned plan) {i : NodeId} {a b : Expr α}
    (hmem : .binary i .matMulTransA a b ∈ plan.walk) {kernel : Kernel α (Handle α × Handle α)}
    (hk : BinaryOp.matMulTransA.kernel? (Expr.binary i .matMulTransA a b).schema a.tag b.tag =
      some kernel) (hzip : kernel.params = .zippable true) (hblocks : e.LeavesHanded blocks)
    (hg : (a.exec blocks call).result = .ok g) (hg' : (b.exec blocks call').result = .ok g') :
    kernel.run (g, g') ≠ .error .notIdenticallyPartitioned := by
  have ha : a ∈ plan.walk :=
    Expr.mem_walk_trans (by simp [Expr.walk_binary, Expr.mem_walk_self]) hmem
  have hb : b ∈ plan.walk :=
    Expr.mem_walk_trans (by simp [Expr.walk_binary, Expr.mem_walk_self]) hmem
  cases hk
  have hevident : Tag.evident a.tag b.tag = true := by simpa using hzip
  obtain ⟨hknown, htag⟩ := Handle.evident_iff.1 hevident
  have hspread := (hs.exec_spread he hplan ha hblocks call).of_ok hg
  have hspread' := (hs.exec_spread he hplan hb hblocks call').of_ok hg'
  have hsame := hspread.samePartitionKeys (htag ▸ hspread') hknown
  intro hrun
  have hfault : Error.IsFault .notIdenticallyPartitioned :=
    ((Schema.shape_fails _).bind fun shape =>
      hevident ▸ Handle.transposedTimes_fails_zipped hsame shape).of_error hrun
  obtain ⟨_, -, hfault⟩ := hfault
  cases hfault

end Acts

end Stage

/-! ## Whole runs -/

section Runs

variable [Cell α] {start s : Stage α} {acts : List (Act α)}

theorem Stage.drawsWords_step {s : Stage α} (h : s.managed.substrate.tags.DrawsWords) (act : Act α) :
    (s.step act).managed.substrate.tags.DrawsWords := by
  have hnext := (TagSource.next_isWord h).2
  have hbuild (b : Build (Expr α)) : (s.build b).managed.substrate.tags.DrawsWords := by
    unfold Stage.build
    split <;> exact h
  have hsame {answer : Except Error (Expr α) × Managed α} {r : Except Error (Expr α)}
      (ha : answer = (r, s.managed)) : (s.absorb answer).managed.substrate.tags.DrawsWords :=
    ha ▸ h
  cases act with
  | parallelize matrix partitions keys level =>
    rcases s.managed.parallelize_cases matrix partitions keys level with
      ⟨error, hfailed⟩ | ⟨m, n, c, -, hmade⟩
    · exact hsame hfailed
    · exact hmade.tags.trans (if_pos rfl) ▸ hnext
  | checkpoint blocks e level =>
    rcases s.managed.checkpoint_cases blocks e level with
      ⟨i, c, -, hleaf⟩ | ⟨entry, -, -, hknown⟩ | ⟨error, -, hfailed⟩ | ⟨plan, n, c, -, hmade⟩
    · exact hsame hleaf
    · exact hsame hknown
    · rcases hfailed.tags with htags | htags
      · exact htags ▸ h
      · exact htags ▸ hnext
    · have htags := hmade.tags
      split at htags
      · exact htags ▸ hnext
      · exact htags ▸ h
  | unary | binary | foreign => exact hbuild _
  | forget | clear | release => exact h

/-- All checkpoints of a run have known tags of 64 bits, whatever block functions do. -/
theorem Run.tag_isWord (h₀ : start.Initial) (hwords : start.managed.substrate.tags.DrawsWords)
    (h : Run start acts s) : s.managed.substrate.tags.DrawsWords ∧
      ∀ i c, .checkpoint i c ∈ s.nodes → c.tag.IsWord := by
  induction h with
  | refl =>
    refine ⟨hwords, fun i c hc => ?_⟩
    rw [h₀.nodes] at hc
    cases hc
  | @step acts s hrun act on ih =>
    obtain ⟨hw, hold⟩ := ih
    have hs := hrun.housed h₀
    have hnext := (TagSource.next_isWord hw).1
    refine ⟨Stage.drawsWords_step hw act, fun i c hc => ?_⟩
    rcases hs.checkpoint_mem_step on hc with
      hc | ⟨_, _, _, _, _, _, -, hnew⟩ | ⟨blocks, e, level, s', plan, rfl, hnew⟩
    · exact hold i c hc
    · exact hnew.tag.trans (if_pos rfl) ▸ hnext
    · have htag := hnew.tag
      split at htag
      · exact htag ▸ hnext
      · next ht =>
        -- a known tag of a plan is that of a leaf, which is an older checkpoint
        obtain ⟨_, -, -, -, hplan⟩ := Expr.planned_of_optimize hs.population on hnew.optimize
        obtain ⟨j, leaf, hleaf, hsame⟩ := Expr.exists_leaf_of_tag ht
        exact (htag.trans hsame.symm) ▸
          hold j leaf (hs.population.walk_subset on _ (hplan.leaf_mem hleaf))

theorem Run.sound (h₀ : start.Initial) (h : Run start acts s) (hkeys : ∀ act ∈ acts, act.HasValues)
    (hblocks : ∀ act ∈ acts, act.LeavesHanded) (hnodup : s.drawn.Nodup) : ∃ L, s.Sound L := by
  induction h with
  | refl =>
    refine ⟨fun _ => [], .of_initial h₀, fun i c hc => ?_⟩
    rw [h₀.nodes] at hc
    cases hc
  | step hrun act on ih =>
    obtain ⟨hacts, hact⟩ := List.forall_mem_append.1 hkeys
    obtain ⟨hrequests, hrequest⟩ := List.forall_mem_append.1 hblocks
    obtain ⟨L, hs⟩ := ih hacts hrequests ((Stage.drawn_prefix_step _ act).sublist.nodup hnodup)
    exact hs.step act on (hact act (List.mem_singleton_self act))
      (hrequest act (List.mem_singleton_self act)) hnodup

/-- **Tags are sound over whole runs**: if no tag is drawn twice, all checkpoints have known tags of
64 bits. If declared block functions leave the keys alone that they are handed, what is computed of
two expressions with equal known tags has equal partition keys. So no product of a plan that is told
to zip its operands complains of them. -/
theorem Run.tags_sound [OrdinaryCell α] (h₀ : start.Initial)
    (hwords : start.managed.substrate.tags.DrawsWords) (h : Run start acts s)
    (hkeys : ∀ act ∈ acts, act.HasValues) (hnodup : s.drawn.Nodup) :
    (∀ i c, .checkpoint i c ∈ s.nodes → c.tag ≠ .unknown ∧ -2 ^ 63 ≤ c.tag ∧ c.tag < 2 ^ 63) ∧
    ((∀ act ∈ acts, act.LeavesHanded) →
      (∀ e₁ ∈ s.nodes, ∀ e₂ ∈ s.nodes, e₁.tag = e₂.tag → e₁.tag ≠ .unknown →
        ∀ n₁ n₂ n₁' n₂' plan₁ plan₂, s.next ≤ n₁ → e₁.optimize n₁ = .ok (plan₁, n₁') →
          s.next ≤ n₂ → e₂.optimize n₂ = .ok (plan₂, n₂') →
        ∀ blocks₁ blocks₂, e₁.LeavesHanded blocks₁ → e₂.LeavesHanded blocks₂ →
        ∀ call₁ call₂ g₁ g₂, (plan₁.exec blocks₁ call₁).result = .ok g₁ →
          (plan₂.exec blocks₂ call₂).result = .ok g₂ →
          g₁.collection.samePartitionKeys g₂.collection = true) ∧
      ∀ e ∈ s.nodes, ∀ n n' plan, s.next ≤ n → e.optimize n = .ok (plan, n') →
        ∀ i a b, .binary i .matMulTransA a b ∈ plan.walk →
        ∀ kernel, BinaryOp.matMulTransA.kernel? (Expr.binary i .matMulTransA a b).schema a.tag b.tag =
            some kernel → kernel.params = .zippable true →
        ∀ blocks, e.LeavesHanded blocks →
        ∀ call₁ call₂ g₁ g₂, (a.exec blocks call₁).result = .ok g₁ →
          (b.exec blocks call₂).result = .ok g₂ →
          kernel.run (g₁, g₂) ≠ .error .notIdenticallyPartitioned) := by
  refine ⟨fun i c hc => ?_, fun hrequests => ?_⟩
  · have hw := (h.tag_isWord h₀ hwords).2 i c hc
    exact ⟨hw.known, hw.lower, hw.upper⟩
  obtain ⟨L, hs⟩ := h.sound h₀ hkeys hrequests hnodup
  constructor
  · intro e₁ he₁ e₂ he₂ htag hknown n₁ n₂ n₁' n₂' plan₁ plan₂ hn₁ hp₁ hn₂ hp₂ blocks₁ blocks₂ hb₁ hb₂
      call₁ call₂ g₁ g₂ hg₁ hg₂
    exact hs.samePartitionKeys he₁ he₂ htag hknown (hs.planned he₁ hn₁ hp₁)
      (hs.planned he₂ hn₂ hp₂) hb₁ hb₂ hg₁ hg₂
  · intro e he n n' plan hn hp i a b hmem kernel hk hzip blocks hb call₁ call₂ g₁ g₂ hg₁ hg₂
    exact hs.zips he (hs.planned he hn hp) hmem hk hzip hb hg₁ hg₂

end Runs

/-! ### A short run -/

def sampleMatrix : Dense Float :=
  ⟨2, 1, #v[.singleton 1.0, .singleton 2.0]⟩

/-- What is made of the matrix in two partitions. -/
def sampleLeaf : Expr Float :=
  .checkpoint 0 ⟨⟨⟨[[(.int 5, .plain [1.0])], [(.int 3, .plain [2.0])]], .int⟩, 1⟩, 0, 2, 1,
    .known sampleMatrix.nonZeros, .memoryOnly, 7, .int⟩

def sampleActs : List (Act Float) :=
  [.parallelize (.matrix sampleMatrix) 2 (some (.plain [.int 5, .int 3])) .memoryOnly,
    .unary (.scalar .plus (.int 1)) sampleLeaf]

/-- A leaf and the sum with a scalar share a tag, and both can be computed. -/
theorem Run.tags_sound_scalar :
    let sum : Expr Float := .unary 1 (.scalar .plus (.int 1)) sampleLeaf
    ∃ s, Run (.ofScript [2 ^ 63, 2 ^ 63 + 7]) sampleActs s ∧ sampleLeaf ∈ s.nodes ∧ sum ∈ s.nodes ∧
      ∀ blocks, ∃ g h, (sampleLeaf.exec blocks 0).result = .ok g ∧
        (sum.exec blocks 1).result = .ok h ∧ g.collection.samePartitionKeys h.collection = true := by
  intro sum
  let first : Act Float :=
    .parallelize (.matrix sampleMatrix) 2 (some (.plain [.int 5, .int 3])) .memoryOnly
  have hleaf : sampleLeaf ∈ ((Stage.ofScript [2 ^ 63, 2 ^ 63 + 7]).step first).nodes := by
    rw [Stage.step, Stage.absorb_nodes_ok _ (e := sampleLeaf) rfl]
    exact Set.mem_insert _ _
  have hrun : Run (.ofScript [2 ^ 63, 2 ^ 63 + 7]) sampleActs _ :=
    (Run.refl.step first trivial).step (.unary (.scalar .plus (.int 1)) sampleLeaf) hleaf
  have hwords : (Stage.ofScript (α := Float) [2 ^ 63, 2 ^ 63 + 7]).managed.substrate.tags.DrawsWords :=
    List.forall_mem_cons.2 ⟨by decide, List.forall_mem_singleton.2 (by decide)⟩
  have hkeys : ∀ act ∈ sampleActs, act.HasValues := by
    refine List.forall_mem_cons.2 ⟨?_, List.forall_mem_singleton.2 trivial⟩
    rintro ks ⟨⟩
    exact List.forall_mem_cons.2 ⟨rfl, List.forall_mem_singleton.2 rfl⟩
  have hsound := hrun.tags_sound (Stage.initial_ofScript _) hwords hkeys (List.pairwise_singleton _ 7)
  have hold := Set.mem_insert_of_mem sum hleaf
  refine ⟨_, hrun, hold, Set.mem_insert sum _, fun blocks => ⟨_, _, rfl, rfl, ?_⟩⟩
  have hrequests : ∀ act ∈ sampleActs, act.LeavesHanded :=
    List.forall_mem_cons.2 ⟨trivial, List.forall_mem_singleton.2 trivial⟩
  have hnone {e : Expr Float} (h : ∀ fn ncol, .mapBlock fn ncol true ∉ e.unaries) :
      e.LeavesHanded blocks := fun fn ncol hop => absurd hop (h fn ncol)
  exact (hsound.2 hrequests).1 sampleLeaf hold sum (Set.mem_insert sum _) rfl (by decide) 2 2 2 2
    sampleLeaf sum (Nat.le_refl 2) rfl (Nat.le_refl 2) rfl blocks blocks
    (hnone fun _ _ => List.not_mem_nil) (hnone fun _ _ hop => by cases List.mem_singleton.1 hop)
    0 1 _ _ rfl rfl

/-! ### Keys that are changed in place -/

/-- Turns around the list of keys that it is handed. -/
def upend : BlockCatalogue Float := fun _ keys block =>
  .ok ⟨keys.reverse, block, keys.reverse⟩

/-- What is made of the matrix in one partition. -/
def stackedLeaf : Expr Float :=
  .checkpoint 0 ⟨⟨⟨[[(.int 0, .plain [1.0]), (.int 1, .plain [2.0])]], .int⟩, 1⟩, 0, 2, 1,
    .known sampleMatrix.nonZeros, .memoryOnly, 7, .int⟩

def upendedLeaf : Expr Float :=
  .unary 1 (.mapBlock "upend" 1 true) stackedLeaf

def upendedProduct : Expr Float :=
  .binary 2 .matMulTransA stackedLeaf upendedLeaf

def upendedActs : List (Act Float) :=
  [.parallelize (.matrix sampleMatrix) 1 none .memoryOnly,
    .unary (.mapBlock "upend" 1 true) stackedLeaf, .binary .matMulTransA stackedLeaf upendedLeaf]

/-- A declared block function that turns around the list of keys that it is handed is not found out:
the leaf and its image share a tag, but not their partition keys, and their product fails. -/
theorem Run.tags_unsound :
    ∃ s, Run (.ofScript [2 ^ 63 + 7]) upendedActs s ∧ s.drawn = [7] ∧ stackedLeaf ∈ s.nodes ∧
      upendedLeaf ∈ s.nodes ∧ upendedProduct ∈ s.nodes ∧ stackedLeaf.tag = 7 ∧ upendedLeaf.tag = 7 ∧
      (∃ n, upendedLeaf.optimize s.next = .ok (upendedLeaf, n)) ∧
      (∃ n, upendedProduct.optimize s.next = .ok (upendedProduct, n)) ∧
      (∃ g h, (stackedLeaf.exec upend 0).result = .ok g ∧ (upendedLeaf.exec upend 0).result = .ok h ∧
        g.collection.samePartitionKeys h.collection = false) ∧
      (upendedProduct.exec upend 0).result = .error .notIdenticallyPartitioned := by
  let first : Act Float := .parallelize (.matrix sampleMatrix) 1 none .memoryOnly
  let s₁ : Stage Float := (Stage.ofScript [2 ^ 63 + 7]).step first
  let s₂ := s₁.step (.unary (.mapBlock "upend" 1 true) stackedLeaf)
  have hleaf : stackedLeaf ∈ s₁.nodes := .inl rfl
  have himage : upendedLeaf ∈ s₂.nodes := .inl rfl
  have hrun : Run (.ofScript [2 ^ 63 + 7]) upendedActs
      (s₂.step (.binary .matMulTransA stackedLeaf upendedLeaf)) :=
    ((Run.refl.step first trivial).step (.unary (.mapBlock "upend" 1 true) stackedLeaf) hleaf).step
      (.binary .matMulTransA stackedLeaf upendedLeaf) ⟨.inr hleaf, himage⟩
  exact ⟨_, hrun, rfl, .inr (.inr hleaf), .inr himage, .inl rfl, rfl, rfl, ⟨_, rfl⟩, ⟨_, rfl⟩,
    ⟨_, _, rfl, rfl, rfl⟩, rfl⟩

end RowAlgebra

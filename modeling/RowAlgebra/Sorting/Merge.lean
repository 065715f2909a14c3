/-!
# Merging

Two runs of items in order become one, where equal items of the left run come first. As long as the
runs take turns, they are merged item by item. When one of them has won often enough in a row, a
whole stretch of it is moved at once; how often is the `patience` of a merge, which falls as long as
that pays and rises when it no longer does. The stretch is found by `leadingCount`, which compares
few of its items.

A merge works from the starts of both runs, or else from their ends, with the smaller run as its
left one. Items that stand in no order end up where these steps leave them. None is lost on the way
(`Sorting.merge_perm`).
-/

namespace RowAlgebra.Sorting

variable {β : Type}

/-! ## Stretches -/

/-- Goes on from `low` in strides that double, as long as the items at their ends have a property.
The last one leads from below `low` to `high`. -/
def strides (p : β → Bool) (items : List β) (low high : Nat) : Nat × Nat :=
  match h : items[high]? with
  | none => (low, items.length)
  | some x =>
    have := (List.getElem?_eq_some_iff.1 h).1
    if p x then strides p items (high + 1) (2 * high + 1) else (low, high)
termination_by items.length - high

/-- Halves the interval from `low` to `high` until it is clear how many items at the start have a
property. Of two items in the middle, seen from the end it is the other one. -/
def halve (fromEnd : Bool) (p : β → Bool) (items : List β) (low high : Nat) : Nat :=
  if low < high then
    let middle := low + (high - low - if fromEnd then 1 else 0) / 2
    if (items[middle]?).any p then halve fromEnd p items (middle + 1) high
    else halve fromEnd p items low middle
  else low
termination_by high - low
decreasing_by all_goals (split <;> omega)

/-- The number of items at the start that have a property, for items of which those at the start
have it and the others have not. -/
def leadingCount (fromEnd : Bool) (p : β → Bool) (items : List β) : Nat :=
  match items with
  | [] => 0
  | x :: _ =>
    if p x then
      let (low, high) := strides p items 1 1
      halve fromEnd p items low high
    else 0

/-! ## The state of a merge -/

/-- The items that are in place, the last one first, and what is left of both runs. -/
structure Merging (β : Type) where
  placed : List β
  left : List β
  right : List β

namespace Merging

def takeLeft (n : Nat) (m : Merging β) : Merging β :=
  ⟨(m.left.take n).reverse ++ m.placed, m.left.drop n, m.right⟩

def takeRight (n : Nat) (m : Merging β) : Merging β :=
  ⟨(m.right.take n).reverse ++ m.placed, m.left, m.right.drop n⟩

/-- Whether there is nothing more to compare. The last item of the left run is known to be behind
all others. -/
def isOver (m : Merging β) : Bool :=
  m.left.length < 2 || m.right.isEmpty

/-- All items, when there is nothing more to compare. -/
def finish (m : Merging β) : List β :=
  m.placed.reverse ++ m.right ++ m.left

theorem finish_takeLeft (n : Nat) (m : Merging β) : (m.takeLeft n).finish.Perm m.finish := by
  have h : (m.left.take n ++ (m.right ++ m.left.drop n)).Perm (m.right ++ m.left) :=
    (List.perm_append_comm_assoc _ _ _).trans (by rw [List.take_append_drop])
  simpa [takeLeft, finish] using h.append_left m.placed.reverse

theorem finish_takeRight (n : Nat) (m : Merging β) : (m.takeRight n).finish = m.finish := by
  simp [takeRight, finish]

end Merging

/-! ## Merging -/

variable (before : β → β → Bool) (fromEnds : Bool)

/-- Moves the items of the left run that stand in front of the next right one, and then that one;
tells the number of the former. -/
def leftStretch (m : Merging β) : Nat × Merging β :=
  match m.right with
  | [] => (0, m)
  | y :: _ =>
    let k := leadingCount fromEnds (fun x => !before y x) m.left
    let m := m.takeLeft k
    (k, if m.isOver then m else m.takeRight 1)

/-- Moves the items of the right run that stand in front of the next left one, and then that one;
tells the number of the former. -/
def rightStretch (m : Merging β) : Nat × Merging β :=
  match m.left with
  | [] => (0, m)
  | x :: _ =>
    let k := leadingCount fromEnds (fun y => before y x) m.right
    let m := m.takeRight k
    (k, if m.isOver then m else m.takeLeft 1)

theorem finish_leftStretch (m : Merging β) :
    (leftStretch before fromEnds m).2.finish.Perm m.finish := by
  unfold leftStretch
  split
  · exact .refl _
  · dsimp only
    split
    · exact m.finish_takeLeft _
    · rw [Merging.finish_takeRight]
      exact m.finish_takeLeft _

theorem finish_rightStretch (m : Merging β) :
    (rightStretch before fromEnds m).2.finish.Perm m.finish := by
  unfold rightStretch
  split
  · exact .refl _
  · dsimp only
    split
    · rw [Merging.finish_takeRight]
    · exact (Merging.finish_takeLeft 1 _).trans (by rw [Merging.finish_takeRight])

/-- The stretch that is moved first, and the one that is moved second: seen from the ends they
change places. -/
def firstStretch : Merging β → Nat × Merging β :=
  if fromEnds then rightStretch before fromEnds else leftStretch before fromEnds

def secondStretch : Merging β → Nat × Merging β :=
  if fromEnds then leftStretch before fromEnds else rightStretch before fromEnds

theorem finish_firstStretch (m : Merging β) :
    (firstStretch before fromEnds m).2.finish.Perm m.finish := by
  unfold firstStretch
  split
  · exact finish_rightStretch ..
  · exact finish_leftStretch ..

theorem finish_secondStretch (m : Merging β) :
    (secondStretch before fromEnds m).2.finish.Perm m.finish := by
  unfold secondStretch
  split
  · exact finish_leftStretch ..
  · exact finish_rightStretch ..

/-- The number of items that makes a stretch long, and the patience to start with. -/
def longStretch : Nat := 7

mutual

/-- Merges item by item, where either run has won so many times in a row; each step but the last
moves an item. Yields the items and the patience that is left. -/
def mergeItems : Nat → Nat → Nat → Nat → Merging β → List β × Nat
  | 0, patience, _, _, m => (m.finish, patience)
  | fuel + 1, patience, leftWins, rightWins, m =>
    match m.isOver, m.left, m.right with
    | false, x :: _, y :: _ =>
      if before y x then
        if patience ≤ rightWins + 1 then mergeStretches fuel patience (m.takeRight 1)
        else mergeItems fuel patience 0 (rightWins + 1) (m.takeRight 1)
      else
        if patience ≤ leftWins + 1 then mergeStretches fuel patience (m.takeLeft 1)
        else mergeItems fuel patience (leftWins + 1) 0 (m.takeLeft 1)
    | _, _, _ => (m.finish, patience)

/-- Merges stretch by stretch, as long as they are long. -/
def mergeStretches : Nat → Nat → Merging β → List β × Nat
  | 0, patience, m => (m.finish, patience)
  | fuel + 1, patience, m =>
    if m.isOver then (m.finish, patience)
    else
      let first := firstStretch before fromEnds m
      if first.2.isOver then (first.2.finish, patience)
      else
        let second := secondStretch before fromEnds first.2
        if second.2.isOver then (second.2.finish, patience)
        else if longStretch ≤ max first.1 second.1 then
          mergeStretches fuel (max 1 (patience - 1)) second.2
        else mergeItems fuel (patience + 1) 0 0 second.2

end

theorem merge_finish_perm (fuel : Nat) :
    (∀ patience i j m, (mergeItems before fromEnds fuel patience i j m).1.Perm m.finish) ∧
      ∀ patience m, (mergeStretches before fromEnds fuel patience m).1.Perm m.finish := by
  induction fuel with
  | zero => exact ⟨fun _ _ _ _ => .refl _, fun _ _ => .refl _⟩
  | succ fuel ih =>
    refine ⟨fun patience i j m => ?_, fun patience m => ?_⟩
    · unfold mergeItems
      split
      · have hr := Merging.finish_takeRight 1 m
        have hl := Merging.finish_takeLeft 1 m
        split <;> split
        · exact hr ▸ ih.2 _ _
        · exact hr ▸ ih.1 _ _ _ _
        · exact (ih.2 _ _).trans hl
        · exact (ih.1 _ _ _ _).trans hl
      · exact .refl _
    · have h1 := finish_firstStretch before fromEnds m
      have h2 := (finish_secondStretch before fromEnds (firstStretch before fromEnds m).2).trans h1
      unfold mergeStretches
      split
      · exact .refl _
      · dsimp only
        split
        · exact h1
        · split
          · exact h2
          · split
            · exact (ih.2 _ _).trans h2
            · exact (ih.1 _ _ _ _).trans h2

/-- Merges two runs, given the patience of the merges before. Items at the start of the left run and
at the end of the right one that are in place already stay there. -/
def merge (below : β → β → Bool) (patience : Nat) (left right : List β) : List β × Nat :=
  match right with
  | [] => (left, patience)
  | y :: _ =>
    let fuel := left.length + right.length
    let first := leadingCount false (fun x => !below y x) left
    let a := left.drop first
    match a.getLast? with
    | none => (left ++ right, patience)
    | some x =>
      let last := right.length - leadingCount true (fun y => !below y x) right.reverse
      let b := right.take last
      if b.isEmpty then (left ++ right, patience)
      else
        let (merged, patience) :=
          if a.length ≤ b.length then
            mergeItems below false fuel patience 0 0 (Merging.takeRight 1 ⟨[], a, b⟩)
          else
            let (items, patience) := mergeItems (fun x y => below y x) true fuel patience 0 0
              (Merging.takeRight 1 ⟨[], b.reverse, a.reverse⟩)
            (items.reverse, patience)
        (left.take first ++ merged ++ right.drop last, patience)

theorem merge_perm (below : β → β → Bool) (patience : Nat) (left right : List β) :
    (merge below patience left right).1.Perm (left ++ right) := by
  unfold merge
  split
  · simp
  · rename_i y ys
    dsimp only
    split
    · exact .refl _
    · rename_i x hx
      split
      · exact .refl _
      · generalize leadingCount false (fun x => !below y x) left = first
        generalize (y :: ys).length - leadingCount true (fun y => !below y x) (y :: ys).reverse
          = last
        generalize (y :: ys) = right
        have hsplit : left.take first ++ (left.drop first ++ right.take last) ++ right.drop last
            = left ++ right := by
          rw [List.append_assoc, List.append_assoc, List.take_append_drop, ← List.append_assoc,
            List.take_append_drop]
        refine List.Perm.trans ?_ (.of_eq hsplit)
        refine List.Perm.append_right _ (List.Perm.append_left _ ?_)
        split
        · refine ((merge_finish_perm _ _ _).1 _ _ _ _).trans ?_
          rw [Merging.finish_takeRight]
          exact List.perm_append_comm
        · refine (List.reverse_perm _).trans (((merge_finish_perm _ _ _).1 _ _ _ _).trans ?_)
          rw [Merging.finish_takeRight]
          simp only [Merging.finish, List.reverse_nil, List.nil_append]
          exact (List.reverse_perm _).append (List.reverse_perm _)

end RowAlgebra.Sorting

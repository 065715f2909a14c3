/-!
# Insertion by halving

An item is inserted among items that are in order, at a place that is found by halving
(`Sorting.place`); behind equal items, so these keep the order that they had. The steps are fixed
because of items that stand in no order, such as the undefined number: they end up where halving
leaves them. Nothing is lost on the way (`Sorting.insert_perm`).
-/

namespace RowAlgebra.Sorting

variable {β : Type} (below : β → β → Bool)

/-- The place of `x` among the items from position `low` up to `high`. -/
def place (x : β) (items : List β) (low high : Nat) : Nat :=
  if low < high then
    let middle := low + (high - low) / 2
    if (items[middle]?).any (below x) then place x items low middle
    else place x items (middle + 1) high
  else low
termination_by high - low

theorem place_le (x : β) (items : List β) (low high : Nat) (h : low ≤ high) :
    place below x items low high ≤ high := by
  fun_induction place below x items low high with
  | case1 low high hlt middle hx ih => have := ih (by omega); omega
  | case2 low high hlt middle hx ih => exact ih (by omega)
  | case3 low high hlt => exact h

/-- Inserts an item among the items before it. -/
def insert (items : List β) (x : β) : List β :=
  items.insertIdx (place below x items 0 items.length) x

theorem insert_perm (items : List β) (x : β) : (insert below items x).Perm (x :: items) :=
  List.perm_insertIdx x items (place_le below x items 0 items.length (Nat.zero_le _))

def insertAll (items : List β) (more : List β) : List β :=
  more.foldl (insert below) items

theorem insertAll_perm (items more : List β) :
    (insertAll below items more).Perm (items ++ more) := by
  induction more generalizing items with
  | nil => simp [insertAll]
  | cons x more ih =>
    refine (ih (insert below items x)).trans ?_
    refine ((insert_perm below items x).append_right more).trans ?_
    exact List.perm_middle.symm

end RowAlgebra.Sorting

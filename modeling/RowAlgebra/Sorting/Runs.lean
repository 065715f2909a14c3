import RowAlgebra.Sorting.Halving
import RowAlgebra.Sorting.Merge

/-!
# Sorting by runs

`Sorting.sort` puts items in order. It cuts them into runs that are in order anyway, lengthens the
short ones by insertion, and merges neighbours. Which neighbours are merged first is decided by the
power of the boundary between them: it tells at which halving of the whole a boundary arises, and
later ones are merged first.

Where an order relates all items the result is in order, and equal items keep the order that they
had. All steps are fixed because of items that stand in no order, such as the undefined number: they
end up where these steps leave them. Nothing is lost on the way (`Sorting.sort_perm`).
-/

namespace RowAlgebra.Sorting

variable {β : Type} (below : β → β → Bool)

/-! ## Cutting -/

/-- The items that go on from `x` in one direction, and those behind them. -/
def goingOn (goesOn : β → β → Bool) (x : β) : List β → List β × List β
  | [] => ([], [])
  | y :: ys =>
    if goesOn x y then
      let (items, rest) := goingOn goesOn y ys
      (y :: items, rest)
    else ([], y :: ys)

theorem goingOn_append (goesOn : β → β → Bool) (x : β) (ys : List β) :
    (goingOn goesOn x ys).1 ++ (goingOn goesOn x ys).2 = ys := by
  induction ys generalizing x with
  | nil => rfl
  | cons y ys ih => by_cases h : goesOn x y <;> simp [goingOn, h, ih]

/-- The items at the start that rise anyway, or those that fall, turned around; and those behind
them. -/
def firstRun : List β → List β × List β
  | [] => ([], [])
  | [x] => ([x], [])
  | x :: y :: ys =>
    if below y x then
      let (falling, rest) := goingOn (fun a b => below b a) y ys
      (falling.reverse ++ [y, x], rest)
    else
      let (rising, rest) := goingOn (fun a b => !below b a) y ys
      (x :: y :: rising, rest)

theorem firstRun_perm (items : List β) :
    ((firstRun below items).1 ++ (firstRun below items).2).Perm items := by
  match items with
  | [] | [_] => exact .refl _
  | x :: y :: ys =>
    rw [firstRun]
    split
    · have h := goingOn_append (fun a b => below b a) y ys
      dsimp only
      rw [List.append_assoc]
      generalize goingOn (fun a b => below b a) y ys = r at h ⊢
      subst h
      refine ((List.reverse_perm r.1).append_right _).trans ?_
      refine (List.perm_append_comm_assoc r.1 [y, x] r.2).trans ?_
      exact List.Perm.swap x y _
    · exact .of_eq (by simp [goingOn_append])

/-- Runs of at least `least` items, as long as there are that many. -/
def cutRuns (least : Nat) : Nat → List β → List (List β)
  | 0, items => [items]
  | fuel + 1, items =>
    if items.isEmpty then []
    else
      let (run, rest) := firstRun below items
      let missing := least - run.length
      insertAll below run (rest.take missing) :: cutRuns least fuel (rest.drop missing)

theorem cutRuns_perm (least fuel : Nat) (items : List β) :
    (cutRuns below least fuel items).flatten.Perm items := by
  induction fuel generalizing items with
  | zero => simp [cutRuns]
  | succ fuel ih =>
    unfold cutRuns
    split
    · simp_all
    · have h := firstRun_perm below items
      dsimp only
      generalize firstRun below items = r at h ⊢
      rw [List.flatten_cons]
      refine List.Perm.trans ((insertAll_perm below ..).append (ih _)) ?_
      rw [List.append_assoc, List.take_append_drop]
      exact h

/-- The least length of a run among `n` items: close to, but not above, a power of two of them. -/
def leastRun (n : Nat) : Nat :=
  leastRunFrom 0 n
where
  /-- Halves `n` until it is below 64; `odd` is one if something has been dropped so far. -/
  leastRunFrom (odd n : Nat) : Nat :=
    if n < 64 then n + odd else leastRunFrom (max odd (n % 2)) (n / 2)

/-! ## Merging neighbours -/

/-- The first binary digit behind the point in which `a / n` and `b / n` differ. -/
def firstDifference (n : Nat) : Nat → Nat → Nat → Nat
  | 0, _, _ => 0
  | fuel + 1, a, b =>
    if n ≤ a then firstDifference n fuel (2 * (a - n)) (2 * (b - n)) + 1
    else if n ≤ b then 1
    else firstDifference n fuel (2 * a) (2 * b) + 1

/-- A run at its place. -/
structure Run (β : Type) where
  start : Nat
  items : List β
  /-- The power of the boundary behind the run, once there is a run behind it. -/
  power : Nat

namespace Run

/-- The power of the boundary between a run and a following one of `next` items, among `n` items in
total: it compares the middles of both. -/
def powerBefore (r : Run β) (n next : Nat) : Nat :=
  let a := 2 * r.start + r.items.length
  firstDifference n n a (a + r.items.length + next)

end Run

def itemsOf (runs : List (Run β)) : List β :=
  (runs.map Run.items).reverse.flatten

/-- Merges the last runs as long as the boundary in front of them is more powerful. -/
def mergePowerful (power : Nat) : List (Run β) → Nat → List (Run β) × Nat
  | top :: second :: rest, patience =>
    if power < second.power then
      let (items, patience) := merge below patience second.items top.items
      mergePowerful power ({ second with items } :: rest) patience
    else (top :: second :: rest, patience)
  | runs, patience => (runs, patience)
termination_by runs => runs.length

theorem mergePowerful_perm (power : Nat) (runs : List (Run β)) (patience : Nat) :
    (itemsOf (mergePowerful below power runs patience).1).Perm (itemsOf runs) := by
  fun_induction mergePowerful below power runs patience with
  | case1 top second rest patience h items patience' e ih =>
    refine ih.trans ?_
    have hm := merge_perm below patience second.items top.items
    rw [e] at hm
    simpa [itemsOf] using hm.append_left (rest.map Run.items).reverse.flatten
  | case2 | case3 => exact .refl _

/-- Adds a run behind the runs so far, after merging those that are to be merged before. -/
def addRun (n : Nat) (state : List (Run β) × Nat) (run : List β) : List (Run β) × Nat :=
  match state.1 with
  | [] => ([⟨0, run, 0⟩], state.2)
  | top :: _ =>
    let power := top.powerBefore n run.length
    let (runs, patience) := mergePowerful below power state.1 state.2
    let start := top.start + top.items.length
    match runs with
    | [] => ([⟨start, run, 0⟩], patience)
    | last :: rest => (⟨start, run, 0⟩ :: { last with power } :: rest, patience)

theorem addRun_perm (n : Nat) (state : List (Run β) × Nat) (run : List β) :
    (itemsOf (addRun below n state run).1).Perm (itemsOf state.1 ++ run) := by
  unfold addRun
  split
  · rename_i h
    simp [itemsOf, h]
  · rename_i top rest h
    dsimp only
    have hp := mergePowerful_perm below (top.powerBefore n run.length) state.1 state.2
    have hp := hp.append_right run
    split <;> rename_i hr <;> rw [hr] at hp <;> simpa [itemsOf] using hp

def mergeAll : List (Run β) → Nat → List β
  | top :: second :: third :: rest, patience =>
    if third.items.length < top.items.length then
      let (items, patience) := merge below patience third.items second.items
      mergeAll (top :: { third with items } :: rest) patience
    else
      let (items, patience) := merge below patience second.items top.items
      mergeAll ({ second with items } :: third :: rest) patience
  | [top, second], patience => (merge below patience second.items top.items).1
  | [top], _ => top.items
  | [], _ => []
termination_by runs => runs.length

theorem mergeAll_perm (runs : List (Run β)) (patience : Nat) :
    (mergeAll below runs patience).Perm (itemsOf runs) := by
  fun_induction mergeAll below runs patience with
  | case1 top second third rest patience h items patience' e ih =>
    refine ih.trans ?_
    have hm := merge_perm below patience third.items second.items
    rw [e] at hm
    simpa [itemsOf] using (hm.append_right top.items).append_left
      (rest.map Run.items).reverse.flatten
  | case2 top second third rest patience h items patience' e ih =>
    refine ih.trans ?_
    have hm := merge_perm below patience second.items top.items
    rw [e] at hm
    simpa [itemsOf] using hm.append_left ((third :: rest).map Run.items).reverse.flatten
  | case3 top second patience => simpa [itemsOf] using merge_perm below patience _ _
  | case4 => simp [itemsOf]
  | case5 => simp [itemsOf]

def sort (items : List β) : List β :=
  let n := items.length
  let runs := cutRuns below (leastRun n) n items
  let state := runs.foldl (addRun below n) ([], longStretch)
  mergeAll below state.1 state.2

theorem itemsOf_foldl_perm (n : Nat) (runs : List (List β)) (state : List (Run β) × Nat) :
    (itemsOf (runs.foldl (addRun below n) state).1).Perm (itemsOf state.1 ++ runs.flatten) := by
  induction runs generalizing state with
  | nil => simp
  | cons run runs ih =>
    refine (ih _).trans (((addRun_perm below n state run).append_right _).trans ?_)
    simp

theorem sort_perm (items : List β) : (sort below items).Perm items := by
  refine (mergeAll_perm below _ _).trans ((itemsOf_foldl_perm below ..).trans ?_)
  simpa [itemsOf] using cutRuns_perm below ..

end RowAlgebra.Sorting

import RowAlgebra.Proofs.Exec.Run
import RowAlgebra.Proofs.Workspace.Scene

/-!
# The trace of an execution

An execution makes one call for each use of a node, in post-order: the inputs of a node come before
the node, the left one before the right one (`Expr.postorder`). The operator of the node determines
which call that is (`Expr.call?`), and the call computes what the physical operator of that name
computes if it is invoked on its own (`UnaryOp.kernel_compute`, `BinaryOp.kernel_compute`).

An execution that fails has made the calls of a first part of that list. Either the last of them is
the one that fails, or the next node to come to has no physical counterpart (`Expr.Stops`). Inputs
are computed after the operator of a node has been looked up, so a node without one stops the
execution ahead of all nodes below it. What has been recorded before stays in place
(`Workspace.exec_traced`).
-/

namespace RowAlgebra

variable {α : Type}

/-! ## The call of a node -/

/-- The physical operators that compute an operator. -/
def UnaryOp.family? : UnaryOp α → Option Family
  | transpose => some .transpose
  | selfGramian => some .gramian
  | scalar op _ => some (.scalar op)
  | rowRange _ _ => some .rowRange
  | rightMultiply _ => some .rightMultiply
  | mapBlock _ _ _ => some .mapBlock
  | transposeAnyKey | leftMultiply _ => none

def BinaryOp.family? : BinaryOp → Option Family
  | matMulTransA => some .transposedTimes
  | matMulTransB => some .timesTransposed
  | elementwise op => some (.elementwise op)
  | matMul => none

namespace Expr

def family? : Expr α → Option Family
  | checkpoint _ _ => some .checkpoint
  | foreign _ _ => none
  | unary _ op _ => op.family?
  | binary _ op _ _ => op.family?

/-- What the call of a node is given beside its inputs: a scalar, or whether the rows of a product
`A'B` can be paired by position. -/
def callParams : Expr α → CallParams
  | unary _ (.scalar _ s) _ => .scalar s
  | binary _ .matMulTransA a b => .zippable (a.isIdenticallyPartitioned b)
  | _ => .nothing

/-- The call that computes a node, if it has a physical counterpart. -/
def call? (e : Expr α) : Option (Call α) :=
  e.family?.map fun family => ⟨family, e, e.callParams⟩

end Expr

namespace CallParams

/-- The arguments of a call that is applied to the given rows. -/
def arguments (handles : List (Handle α)) : CallParams → List (Argument α)
  | scalar s => handles.map .handle ++ [.scalar s]
  | _ => handles.map .handle

def isZippable : CallParams → Bool
  | zippable b => b
  | _ => false

end CallParams

section Compute

variable [Cell α] (blocks : BlockCatalogue α)

/-- What a call with a number computes from the rows of its inputs. -/
def Call.compute (number : Nat) (call : Call α) (handles : List (Handle α)) :
    Except Error (Handle α) :=
  call.family.compute blocks number call.node (call.params.arguments handles)
    call.params.isZippable

variable {blocks} {number : Nat} {i : NodeId} {a b : Expr α}

/-- An operator on one input is executed by its call. -/
theorem UnaryOp.kernel_compute {op : UnaryOp α} {kernel : Kernel α (Handle α)}
    (h : op.kernel? blocks number (op.schema a.schema) = some kernel) :
    let call : Call α := ⟨kernel.family, .unary i op a, kernel.params⟩
    (Expr.unary i op a).call? = some call ∧
      ∀ g, kernel.run g = call.compute blocks number [g] := by
  cases op with
  | transposeAnyKey => cases h
  | leftMultiply m => cases h
  | rightMultiply m =>
    cases h
    refine ⟨rfl, fun g => ?_⟩
    change g.timesDense m = (g.timesDense m >>= fun product => .ok { product with ncol := m.ncol })
    rw [Handle.timesDense]
    cases g.collection.mapRows (Cells.againstRows m.transposed) <;> rfl
  | mapBlock fn ncol keepsKeys =>
    cases h
    refine ⟨rfl, fun g => ?_⟩
    let contract : BlockContract := ⟨fn, ncol, keepsKeys⟩
    change g.mapBlock (blocks fn) contract number =
      (g.mapBlock (blocks fn) contract number >>= fun mapped => .ok { mapped with ncol := ncol })
    rw [Handle.mapBlock]
    cases g.collection.mapPartitions (Handle.applyBlock (blocks fn) contract) <;> rfl
  | _ =>
    cases h
    exact ⟨rfl, fun g => rfl⟩

theorem BinaryOp.kernel_compute (blocks : BlockCatalogue α) (number : Nat) {op : BinaryOp}
    {kernel : Kernel α (Handle α × Handle α)}
    (h : op.kernel? (op.schema a.schema b.schema) a.tag b.tag = some kernel) :
    let call : Call α := ⟨kernel.family, .binary i op a b, kernel.params⟩
    (Expr.binary i op a b).call? = some call ∧
      ∀ f g, kernel.run (f, g) = call.compute blocks number [f, g] := by
  cases op with
  | matMul => cases h
  | _ =>
    cases h
    exact ⟨rfl, fun f g => rfl⟩

theorem UnaryOp.call?_of_refused {op : UnaryOp α}
    (h : op.kernel? blocks number (op.schema a.schema) = none) :
    (Expr.unary i op a).call? = none := by
  cases op <;> first | rfl | cases h

theorem BinaryOp.call?_of_refused {op : BinaryOp}
    (h : (op.kernel? (op.schema a.schema b.schema) a.tag b.tag :
      Option (Kernel α (Handle α × Handle α))) = none) :
    (Expr.binary i op a b).call? = none := by
  cases op <;> first | rfl | cases h

end Compute

/-! ## Post-order -/

namespace Expr

/-- The nodes of an expression, once per use, inputs before operators and left inputs first. -/
def postorder : Expr α → List (Expr α)
  | e@(checkpoint _ _) => [e]
  | e@(foreign _ _) => [e]
  | e@(unary _ _ a) => a.postorder ++ [e]
  | e@(binary _ _ a b) => a.postorder ++ b.postorder ++ [e]

theorem postorder_unary (i : NodeId) (op : UnaryOp α) (a : Expr α) :
    (unary i op a).postorder = a.postorder ++ [unary i op a] := by
  rw [postorder]

theorem postorder_binary (i : NodeId) (op : BinaryOp) (a b : Expr α) :
    (binary i op a b).postorder = a.postorder ++ b.postorder ++ [binary i op a b] := by
  rw [postorder]

theorem length_postorder (e : Expr α) : e.postorder.length = e.size := by
  induction e with
  | checkpoint i c => rfl
  | foreign i shape => rfl
  | unary i op a ih => rw [postorder_unary, List.length_append, ih]; rfl
  | binary i op a b iha ihb =>
    rw [postorder_binary, List.length_append, List.length_append, iha, ihb]
    rfl

/-- Each use of a node comes up once. -/
theorem postorder_perm_walk (e : Expr α) : e.postorder.Perm e.walk := by
  induction e with
  | checkpoint i c => exact .refl _
  | foreign i shape => exact .refl _
  | unary i op a ih =>
    rw [postorder_unary, walk_unary]
    exact (List.perm_append_singleton _ _).trans (ih.cons _)
  | binary i op a b iha ihb =>
    rw [postorder_binary, walk_binary]
    exact (List.perm_append_singleton _ _).trans ((iha.append ihb).cons _)

/-- Calls name the nodes that they compute. -/
theorem nodes_eq_of_calls {calls : List (Call α)} {nodes : List (Expr α)}
    (h : calls.map some = nodes.map call?) : calls.map Call.node = nodes := by
  induction calls generalizing nodes with
  | nil => exact (List.map_eq_nil_iff.1 h.symm).symm
  | cons call calls ih =>
    obtain ⟨x, xs, rfl, hx, hxs⟩ := List.map_eq_cons_iff.1 h.symm
    obtain ⟨family, -, hcall⟩ := Option.map_eq_some_iff.1 hx
    rw [List.map_cons, ih hxs.symm, ← hcall]

/-- Executing an expression comes to a node of it after it has computed the nodes `done`. -/
inductive ComesTo : Expr α → List (Expr α) → Expr α → Prop
  | root (e : Expr α) : ComesTo e [] e
  | input (i : NodeId) (op : UnaryOp α) {a x : Expr α} {done : List (Expr α)}
      (h : ComesTo a done x) : ComesTo (unary i op a) done x
  | left (i : NodeId) (op : BinaryOp) {a x : Expr α} (b : Expr α) {done : List (Expr α)}
      (h : ComesTo a done x) : ComesTo (binary i op a b) done x
  | right (i : NodeId) (op : BinaryOp) (a : Expr α) {b x : Expr α} {done : List (Expr α)}
      (h : ComesTo b done x) : ComesTo (binary i op a b) (a.postorder ++ done) x

/-- What has been computed, and then the node with all that is below it, begins the post-order. -/
theorem ComesTo.prefix_postorder {e x : Expr α} {done : List (Expr α)} (h : ComesTo e done x) :
    done ++ x.postorder <+: e.postorder := by
  induction h with
  | root e => exact List.prefix_refl _
  | input i op h ih =>
    rw [postorder_unary]
    exact ih.trans (List.prefix_append _ _)
  | left i op b h ih =>
    rw [postorder_binary, List.append_assoc]
    exact ih.trans (List.prefix_append _ _)
  | right i op a h ih =>
    rw [postorder_binary, List.append_assoc, List.append_assoc]
    exact List.prefix_append_right_inj _ |>.2 (ih.trans (List.prefix_append _ _))

/-! ## Executions -/

section Executions

variable [Cell α]

/-- Where an execution with the first call number `start` stops with an error, after some calls. -/
inductive Stops (blocks : BlockCatalogue α) (start : Nat) (e : Expr α) (calls : List (Call α)) :
    Error → Prop
  /-- It comes to a node without a physical counterpart, and nothing below that is computed. -/
  | refused {done : List (Expr α)} {x : Expr α} (h : e.ComesTo done x) (hx : x.call? = none)
      (hcalls : calls.map some = done.map call?) : Stops blocks start e calls x.refusal
  /-- Its last call fails on the rows of its inputs, which have been computed. -/
  | failed {done : List (Expr α)} {x : Expr α} {call : Call α} {number : Nat}
      {handles : List (Handle α)} {error : Error} (h : e.ComesTo done x)
      (hx : x.call? = some call) (hcalls : calls.map some = (done ++ x.postorder).map call?)
      (hnumber : number + 1 = start + calls.length)
      (hinputs : List.Forall₂ (fun a g => ∃ n, (a.exec blocks n).result = .ok g) x.children handles)
      (herror : call.compute blocks number handles = .error error) :
      Stops blocks start e calls error

variable {blocks : BlockCatalogue α} {start : Nat} {error : Error}

namespace Stops

theorem calls_initial {e : Expr α} {calls : List (Call α)} (h : e.Stops blocks start calls error) :
    calls.map some <+: e.postorder.map call? := by
  cases h with
  | refused h hx hcalls =>
    rw [hcalls]
    exact ((List.prefix_append _ _).trans h.prefix_postorder).map _
  | failed h hx hcalls =>
    rw [hcalls]
    exact h.prefix_postorder.map _

theorem input (i : NodeId) (op : UnaryOp α) {a : Expr α} {calls : List (Call α)}
    (h : a.Stops blocks start calls error) : (unary i op a).Stops blocks start calls error := by
  cases h with
  | refused h hx hcalls => exact .refused (h.input i op) hx hcalls
  | failed h hx hcalls hnumber hinputs herror =>
    exact .failed (h.input i op) hx hcalls hnumber hinputs herror

theorem left (i : NodeId) (op : BinaryOp) {a : Expr α} (b : Expr α) {calls : List (Call α)}
    (h : a.Stops blocks start calls error) : (binary i op a b).Stops blocks start calls error := by
  cases h with
  | refused h hx hcalls => exact .refused (h.left i op b) hx hcalls
  | failed h hx hcalls hnumber hinputs herror =>
    exact .failed (h.left i op b) hx hcalls hnumber hinputs herror

theorem right (i : NodeId) (op : BinaryOp) {a b : Expr α} {first calls : List (Call α)}
    (hfirst : first.map some = a.postorder.map call?)
    (h : b.Stops blocks (start + a.size) calls error) :
    (binary i op a b).Stops blocks start (first ++ calls) error := by
  have hlength : first.length = a.size := by
    rw [← length_postorder, ← List.length_map some, hfirst, List.length_map]
  cases h with
  | refused h hx hcalls =>
    refine .refused (h.right i op a) hx ?_
    rw [List.map_append, List.map_append, hfirst, hcalls]
  | failed h hx hcalls hnumber hinputs herror =>
    refine .failed (h.right i op a) hx ?_ ?_ hinputs herror
    · rw [List.map_append, List.append_assoc, List.map_append, hfirst, hcalls]
    · rw [hnumber, List.length_append, hlength, Nat.add_assoc]

end Stops

/-- The call of a node ends its part of the trace, whether it succeeds or not. -/
theorem ends_with_call {x : Expr α} {below : List (Expr α)} {calls : List (Call α)} {call : Call α}
    {number : Nat} {handles : List (Handle α)} (hx : x.call? = some call)
    (hbelow : x.postorder = below ++ [x]) (hcalls : calls.map some = below.map call?)
    (hnumber : number = start + below.length)
    (hinputs : List.Forall₂ (fun a g => ∃ n, (a.exec blocks n).result = .ok g) x.children handles) :
    Ends (call.compute blocks number handles)
      (fun _ => (calls ++ [call]).map some = x.postorder.map call?)
      (x.Stops blocks start (calls ++ [call])) := by
  have hpostorder : (calls ++ [call]).map some = x.postorder.map call? := by
    rw [hbelow, List.map_append, List.map_append, hcalls, List.map_singleton, List.map_singleton,
      hx]
  cases hr : call.compute blocks number handles with
  | ok g => exact Ends.ok hpostorder
  | error error =>
    have hlength : calls.length = below.length := by
      rw [← List.length_map some, hcalls, List.length_map]
    refine Ends.error (.failed (.root x) hx hpostorder ?_ hinputs hr)
    rw [hnumber, List.length_append, hlength]
    rfl

/-- **Executions call in post-order**, and stop at a node that has no call, or whose call fails. -/
theorem exec_calls (blocks : BlockCatalogue α) (e : Expr α) (start : Nat) :
    Ends (e.exec blocks start).result
      (fun _ => (e.exec blocks start).calls.map some = e.postorder.map call?)
      (e.Stops blocks start (e.exec blocks start).calls) := by
  induction e generalizing start with
  | checkpoint i c => exact Ends.ok rfl
  | foreign i shape => exact Ends.error (.refused (.root _) rfl rfl)
  | unary i op a ih =>
    cases hk : op.kernel? blocks (start + a.size) (op.schema a.schema) with
    | none =>
      rw [exec_unary_refused hk]
      exact Ends.error (.refused (.root _) (UnaryOp.call?_of_refused hk) rfl)
    | some kernel =>
      obtain ⟨hcall, hcompute⟩ := UnaryOp.kernel_compute (i := i) hk
      specialize ih start
      rw [exec_unary_eq hk]
      cases ha : (a.exec blocks start).result with
      | error error =>
        rw [Traced.result_bind, Traced.calls_bind_error ha, ha]
        exact Ends.error ((ih.of_error ha).input i op)
      | ok g =>
        rw [Traced.result_bind, Traced.calls_bind_ok ha, ha]
        change Ends (kernel.run g) _ _
        rw [hcompute]
        refine ends_with_call hcall (postorder_unary i op a) (ih.of_ok ha) ?_ ?_
        · rw [length_postorder]
        · exact .cons ⟨start, ha⟩ .nil
  | binary i op a b iha ihb =>
    cases hk : (op.kernel? (op.schema a.schema b.schema) a.tag b.tag :
        Option (Kernel α (Handle α × Handle α))) with
    | none =>
      rw [exec_binary_refused hk]
      exact Ends.error (.refused (.root _) (BinaryOp.call?_of_refused hk) rfl)
    | some kernel =>
      obtain ⟨hcall, hcompute⟩ :=
        BinaryOp.kernel_compute blocks (start + a.size + b.size) (i := i) hk
      specialize iha start
      specialize ihb (start + a.size)
      rw [exec_binary_eq hk]
      cases ha : (a.exec blocks start).result with
      | error error =>
        rw [Traced.result_bind, Traced.calls_bind_error ha, ha]
        exact Ends.error ((iha.of_error ha).left i op b)
      | ok g =>
        rw [Traced.result_bind, Traced.calls_bind_ok ha, ha]
        have hfirst := iha.of_ok ha
        change Ends (Traced.result (_ >>= _)) _ _
        cases hb : (b.exec blocks (start + a.size)).result with
        | error error =>
          rw [Traced.result_bind, Traced.calls_bind_error hb, hb]
          exact Ends.error (.right i op hfirst (ihb.of_error hb))
        | ok h =>
          rw [Traced.result_bind, Traced.calls_bind_ok hb, hb, ← List.append_assoc]
          change Ends (kernel.run (g, h)) _ _
          rw [hcompute]
          refine ends_with_call hcall (postorder_binary i op a b) ?_ ?_ ?_
          · rw [List.map_append, List.map_append, hfirst, ihb.of_ok hb]
          · rw [List.length_append, length_postorder, length_postorder, Nat.add_assoc]
          · exact .cons ⟨start, ha⟩ (.cons ⟨start + a.size, hb⟩ .nil)

end Executions

end Expr

/-! ## Prior records -/

namespace Workspace

variable [Cell α] (blocks : BlockCatalogue α)

/-- **The trace of an execution** goes on from what has been recorded before. A plan that can be
executed adds the call of every use of a node, in post-order; a plan that cannot adds a first part
of these calls. -/
theorem exec_traced (w : Workspace α) {i : ManagerId} (hi : i < w.managers.length)
    (plan : Expr α) :
    ∃ calls, ((exec blocks i plan w).2.manager i).library.trace =
        (w.manager i).library.trace ++ calls ∧
      calls.map some <+: plan.postorder.map Expr.call? ∧
      match (exec blocks i plan w).1 with
      | .ok _ => calls.map some = plan.postorder.map Expr.call? ∧
          (calls.map Call.node).Perm plan.walk
      | .error error => plan.Stops blocks w.substrate.nextCall calls error := by
  have hcalls := plan.exec_calls blocks w.substrate.nextCall
  refine ⟨(plan.exec blocks w.substrate.nextCall).calls, ?_, ?_⟩
  · change ((w.update i _).manager i).library.trace = _
    rw [w.manager_update _ hi, if_pos rfl]
    rfl
  · change _ ∧ match (plan.exec blocks w.substrate.nextCall).result with
      | .ok _ => _
      | .error error => plan.Stops blocks w.substrate.nextCall _ error
    cases hr : (plan.exec blocks w.substrate.nextCall).result with
    | ok g =>
      have hpostorder := hcalls.of_ok hr
      refine ⟨hpostorder ▸ List.prefix_refl _, hpostorder, ?_⟩
      rw [Expr.nodes_eq_of_calls hpostorder]
      exact plan.postorder_perm_walk
    | error error => exact ⟨(hcalls.of_error hr).calls_initial, hcalls.of_error hr⟩

end Workspace

/-- The right operand of a sum is a product that nothing computes: the left operand has been read by
then, once more after the call that was recorded before. -/
theorem Workspace.exec_traced_refused :
    let a : Expr Float := .checkpoint 0 (.ofShape 1 1 .int 1)
    let product : Expr Float := .binary 1 .matMul a a
    let sum : Expr Float := .binary 2 (.elementwise .plus) a product
    let read : Call Float := ⟨.checkpoint, a, .nothing⟩
    let w : Workspace Float :=
      { (initial [] : Workspace Float) with managers := [⟨⟨0, [read]⟩, []⟩] }
    ∀ blocks, 0 < w.managers.length ∧ ∃ calls,
      ((exec blocks 0 sum w).2.manager 0).library.trace = [read, read] ∧ calls = [read] ∧
        calls.map some <+: sum.postorder.map Expr.call? ∧
        sum.Stops blocks 0 calls product.refusal := by
  intro a product sum read w blocks
  obtain ⟨calls, htrace, hprefix, hstops⟩ := exec_traced blocks w (i := 0) (by decide) sum
  have hcalls : [read, read] = [read] ++ calls := htrace
  exact ⟨by decide, calls, rfl, (List.cons.inj hcalls).2.symm, hprefix, hstops⟩

end RowAlgebra

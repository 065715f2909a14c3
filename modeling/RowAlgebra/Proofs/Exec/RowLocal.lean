import RowAlgebra.Handle.StandardBlocks
import RowAlgebra.Proofs.Exec.PlainRows
import RowAlgebra.Proofs.Exec.Rows
import RowAlgebra.Proofs.Together

/-!
# Block functions that treat each row on its own

What a block function makes of a stack of rows may depend on all of them. It is `RowLocal` if there is
a function of single rows so that it yields what that function makes of each row, put together again,
and fails if that cannot be done. Then applying it to a partition is a map over its rows, as far as
values are concerned: also the checks of the contract come down to one check for each row
(`BlockContract.Fits`, `Handle.applyBlock_together`).
-/

namespace RowAlgebra

variable {α : Type}

/-! ## Lists -/

theorem Key.sameAll_iff_forall₂ : ∀ {as bs : List Key},
    sameAll as bs = true ↔ List.Forall₂ (fun a b => a.same b = true) as bs
  | [], [] => by simp [sameAll]
  | [], _ :: _ => by simp [sameAll]
  | _ :: _, [] => by simp [sameAll]
  | _ :: _, _ :: _ => by simp [sameAll, List.forall₂_cons, sameAll_iff_forall₂]

/-- What goes through something in between item by item goes through a list in between. -/
theorem forall₂_through_iff {β γ δ : Type} {A : β → γ → Prop} {F : γ → δ} {l : List β} {m : List δ} :
    List.Forall₂ (fun b d => ∃ c, A b c ∧ F c = d) l m ↔
      ∃ cs, List.Forall₂ A l cs ∧ cs.map F = m := by
  constructor
  · intro h
    induction h with
    | nil => exact ⟨[], .nil, rfl⟩
    | cons hbd _ ih =>
      obtain ⟨c, hc, rfl⟩ := hbd
      obtain ⟨cs, hcs, rfl⟩ := ih
      exact ⟨c :: cs, .cons hc hcs, rfl⟩
  · rintro ⟨cs, hcs, rfl⟩
    exact List.forall₂_map_right_iff.2 (hcs.imp fun b c hbc => ⟨c, hbc, rfl⟩)

theorem forall₂_and_right_iff {β γ : Type} {A : β → γ → Prop} {B : γ → Prop} {l : List β}
    {m : List γ} : List.Forall₂ (fun b c => A b c ∧ B c) l m ↔
      List.Forall₂ A l m ∧ ∀ c ∈ m, B c := by
  constructor
  · intro h
    refine ⟨h.imp fun _ _ h => h.1, fun c hc => ?_⟩
    obtain ⟨i, hi, rfl⟩ := List.getElem_of_mem hc
    exact (h.get (h.length_eq ▸ hi) hi).2
  · rintro ⟨hA, hB⟩
    refine List.forall₂_iff_zip.2 ⟨hA.length_eq, fun {b c} hbc => ?_⟩
    exact ⟨(List.forall₂_iff_zip.1 hA).2 hbc, hB c (List.of_mem_zip hbc).2⟩

/-! ## Row by row -/

variable [Cell α]

/-- What a block function may make of a keyed row: a key, a row of plain cells, and the key that it
puts in the place of the one that it was handed. -/
structure RowImage (α : Type) where
  key : Key
  row : Row α
  handed : Key

namespace RowImage

def entry (image : RowImage α) : KeyedRow α :=
  (image.key, .plain image.row)

/-- A row under the key that was handed in. -/
def kept (entry : Key × Row α) : RowImage α :=
  ⟨entry.1, entry.2, entry.1⟩

/-- Some images in one matrix, if they are equally long. -/
def gathered (images : List (RowImage α)) : Except Error (BlockResult (Dense α)) := do
  let block ← Handle.stacked (images.map fun image => .plain image.row)
  return ⟨images.map key, ← block.toDense, images.map handed⟩

end RowImage

/-- What a block function yields for a block, as plain cells. -/
def BlockFunction.plainly (f : BlockFunction α) (keys : List Key) (block : Block α) :
    Except Error (BlockResult (Dense α)) := do
  let result ← f keys block
  return ⟨result.keys, ← result.block.toDense, result.handed⟩

/-- Whether a block function treats each row on its own, as long as only certain rows occur. -/
def BlockFunction.RowLocal (f : BlockFunction α) (Occurs : Cells α → Prop) : Prop :=
  ∃ g : Key → Cells α → Except Error (RowImage α), ∀ (p : List (KeyedRow α)) block, p ≠ [] →
    (∀ entry ∈ p, Occurs entry.2) → Handle.stacked (p.map Prod.snd) = .ok block →
      Together (f.plainly (p.map Prod.fst) block)
        (p.mapM (fun entry => g entry.1 entry.2) >>= RowImage.gathered) Eq

namespace RowImage

theorem gathered_eq_ok {images : List (RowImage α)} {result : BlockResult (Dense α)}
    (h : gathered images = .ok result) :
    result.keys = images.map key ∧ result.handed = images.map handed ∧
      result.block.rows = images.map row := by
  obtain ⟨block, hblock, h⟩ := bind_eq_ok_iff.1 h
  have hplain : (images.map fun image => Cells.plain image.row) =
      (images.map row).map Cells.plain := List.map_map.symm
  rw [hplain] at hblock
  obtain ⟨m, rfl, hrows⟩ := Handle.rows_of_stacked hblock
  cases h
  exact ⟨rfl, rfl, hrows⟩

theorem gathered_ok {images : List (RowImage α)} (hne : images ≠ []) {n : Nat}
    (h : ∀ image ∈ images, image.row.length = n) :
    ∃ m, gathered images = .ok ⟨images.map key, m, images.map handed⟩ ∧ m.ncol = n ∧
      m.rows = images.map row := by
  have hrows : images.map row ≠ [] := by simpa using hne
  obtain ⟨m, hm, hncol, hrows⟩ := Handle.stacked_plain hrows (List.forall_mem_map.2 h)
  rw [List.map_map] at hm
  refine ⟨m, ?_, hncol, hrows⟩
  unfold gathered
  change (do
    let block ← Handle.stacked (images.map (Cells.plain ∘ row))
    return (⟨images.map key, ← block.toDense, images.map handed⟩ : BlockResult (Dense α))) = _
  rw [hm]
  rfl

end RowImage

namespace BlockContract

variable (contract : BlockContract)

/-- What a contract asks of what becomes of a row. -/
def Fits (image : RowImage α) : Prop :=
  (image.row.length : Int) = contract.ncol ∧
    (contract.keepsKeys = true → image.key.same image.handed = true)

instance (image : RowImage α) : Decidable (contract.Fits image) :=
  inferInstanceAs (Decidable (_ ∧ _))

variable {contract}

omit [Cell α] in
theorem enforce_eq_ok_iff {keys handed : List Key} {m : Dense α} {q : List (KeyedRow α)} :
    contract.enforce ⟨keys, m, handed⟩ = .ok q ↔
      m.nrow = handed.length ∧ (m.ncol : Int) = contract.ncol ∧ keys.length = handed.length ∧
        (contract.keepsKeys = true → Key.sameAll keys handed = true) ∧
          keys.zip (m.rows.map .plain) = q := by
  unfold enforce
  dsimp only
  split
  · next hrefused =>
    refine ⟨nofun, fun ⟨hnrow, hncol, hlength, _⟩ => ?_⟩
    rcases hrefused with hshape | hlength'
    · exact absurd (by rw [Dense.shape, hnrow, hncol]) hshape
    · exact absurd hlength hlength'
  · next hfit =>
    obtain ⟨hshape, hlength⟩ := not_or.1 hfit
    obtain ⟨hnrow, hncol⟩ := Shape.mk.inj (not_not.1 hshape)
    have hnrow : m.nrow = handed.length := Int.ofNat.inj hnrow
    split
    · next hkeys =>
      simp only [Bool.and_eq_true, Bool.not_eq_true'] at hkeys
      simp [hkeys.1, hkeys.2]
    · next hkeys =>
      simp only [Bool.and_eq_true, Bool.not_eq_true', not_and, Bool.not_eq_false] at hkeys
      simp [hnrow, hncol, not_not.1 hlength]
      exact fun _ => hkeys

/-- The checks on a matrix of images are checks on each of them. -/
theorem enforce_gathered_iff {images : List (RowImage α)} (hne : images ≠ [])
    {q : List (KeyedRow α)} :
    (RowImage.gathered images >>= contract.enforce) = .ok q ↔
      (∀ image ∈ images, contract.Fits image) ∧ images.map RowImage.entry = q := by
  have hentries {m : Dense α} (hrows : m.rows = images.map RowImage.row) :
      (images.map RowImage.key).zip (m.rows.map .plain) = images.map RowImage.entry := by
    rw [hrows, List.map_map, List.zip_map']
    rfl
  have hsame : Key.sameAll (images.map RowImage.key) (images.map RowImage.handed) = true ↔
      ∀ image ∈ images, image.key.same image.handed = true := by
    rw [Key.sameAll_iff_forall₂, List.forall₂_map_left_iff, List.forall₂_map_right_iff,
      List.forall₂_same]
  constructor
  · intro h
    obtain ⟨⟨keys, m, handed⟩, hm, h⟩ := bind_eq_ok_iff.1 h
    obtain ⟨rfl, rfl, hrows⟩ := RowImage.gathered_eq_ok hm
    obtain ⟨-, hncol, -, hkeys, rfl⟩ := enforce_eq_ok_iff.1 h
    refine ⟨fun image himage => ⟨?_, fun hkeeps => hsame.1 (hkeys hkeeps) image himage⟩,
      (hentries hrows).symm⟩
    have hrow : image.row ∈ m.rows := hrows ▸ List.mem_map_of_mem himage
    rw [Dense.length_of_mem_rows hrow, hncol]
  · rintro ⟨hfits, rfl⟩
    have hncol : ∀ image ∈ images, (image.row.length : Int) = contract.ncol :=
      fun image himage => (hfits image himage).1
    obtain ⟨m, hm, hmcol, hrows⟩ := RowImage.gathered_ok (n := contract.ncol.toNat) hne
      fun image himage => by have := hncol image himage; omega
    refine bind_eq_ok_iff.2 ⟨_, hm, enforce_eq_ok_iff.2 ⟨?_, ?_, ?_, fun hkeeps => ?_, ?_⟩⟩
    · rw [← m.length_rows, hrows, List.length_map, List.length_map]
    · obtain ⟨image, himage⟩ := List.exists_mem_of_ne_nil _ hne
      have := hncol image himage
      omega
    · rw [List.length_map, List.length_map]
    · exact hsame.2 fun image himage => (hfits image himage).2 hkeeps
    · exact hentries hrows

end BlockContract

/-! ## Partitions -/

/-- What a contract lets become of a row. -/
def RowImage.step (g : Key → Cells α → Except Error (RowImage α)) (contract : BlockContract)
    (entry : KeyedRow α) : Except Error (KeyedRow α) := do
  let image ← g entry.1 entry.2
  if contract.Fits image then return image.entry else throw (.blockKeys contract.fn)

omit [Cell α] in
theorem RowImage.step_eq_ok_iff {g : Key → Cells α → Except Error (RowImage α)}
    {contract : BlockContract} {entry new : KeyedRow α} :
    step g contract entry = .ok new ↔
      ∃ image, (g entry.1 entry.2 = .ok image ∧ contract.Fits image) ∧ image.entry = new := by
  unfold step
  rw [bind_eq_ok_iff]
  refine exists_congr fun image => ?_
  rw [and_assoc]
  refine and_congr_right fun _ => ?_
  split
  · next hfits => simp [hfits, pure, Except.pure]
  · next hfits => simp [hfits, throw, throwThe, MonadExceptOf.throw]

/-- A block function that treats each row on its own is applied to a partition row by row. -/
theorem Handle.applyBlock_together {f : BlockFunction α} {Occurs : Cells α → Prop}
    (hf : f.RowLocal Occurs) (contract : BlockContract) :
    ∃ step, ∀ (n : Nat) (p : List (KeyedRow α)),
      (∀ entry ∈ p, Occurs entry.2 ∧ entry.2.length = n) →
        Together (applyBlock f contract p) (p.mapM step) Eq := by
  obtain ⟨g, hg⟩ := hf
  refine ⟨RowImage.step g contract, fun n p hp => ?_⟩
  by_cases hne : p = []
  · subst hne
    exact .refl _
  have hcells : p.map Prod.snd ≠ [] := by simpa using hne
  obtain ⟨block, hblock⟩ := exists_stacked hcells
    (List.forall_mem_map.2 fun entry he => (hp entry he).2)
  have hyield := hg p block hne (fun entry he => (hp entry he).1) hblock
  have happly : applyBlock f contract p =
      (f.plainly (p.map Prod.fst) block >>= contract.enforce) := by
    have hempty : ¬ p.isEmpty = true := by simpa using hne
    rw [applyBlock, if_neg hempty, hblock, BlockFunction.plainly, bind_assoc]
    simp only [bind_assoc, pure_bind]
    rfl
  have hgathered : Together (f.plainly (p.map Prod.fst) block >>= contract.enforce)
      ((p.mapM (fun entry => g entry.1 entry.2) >>= RowImage.gathered) >>= contract.enforce) Eq :=
    hyield.bind fun r r' hr => hr ▸ .refl (contract.enforce r)
  have hsteps (q : List (KeyedRow α)) : p.mapM (RowImage.step g contract) = .ok q ↔
      ∃ images, List.Forall₂ (fun entry image => g entry.1 entry.2 = .ok image) p images ∧
        (∀ image ∈ images, contract.Fits image) ∧ images.map RowImage.entry = q := by
    simp only [mapM_eq_ok_iff, RowImage.step_eq_ok_iff]
    rw [forall₂_through_iff]
    simp only [forall₂_and_right_iff, and_assoc]
  rw [happly]
  refine together_eq_iff.2 fun q => ((together_eq_iff.1 hgathered) q).trans ?_
  rw [bind_assoc, bind_eq_ok_iff, hsteps]
  simp only [mapM_eq_ok_iff]
  refine exists_congr fun images => and_congr_right fun himages => ?_
  refine BlockContract.enforce_gathered_iff fun hnil => hne ?_
  exact List.length_eq_zero_iff.1 (himages.length_eq.trans (hnil ▸ rfl))

/-! ## Functions of rows -/

namespace BlockFunction

theorem RowLocal.anti {f : BlockFunction α} {Occurs Occurs' : Cells α → Prop}
    (h : f.RowLocal Occurs') (hs : ∀ cells, Occurs cells → Occurs' cells) : f.RowLocal Occurs := by
  obtain ⟨g, hg⟩ := h
  exact ⟨g, fun p block hne hoccurs => hg p block hne fun entry he => hs _ (hoccurs entry he)⟩

omit [Cell α] in
/-- Changing rows that keep their keys is changing rows. -/
theorem mapM_keyed (f : Key → Row α → Except Error (Row α)) (q : List (Key × Row α)) :
    (q.mapM fun entry => do return RowImage.kept (entry.1, ← f entry.1 entry.2)) = (do
      return ((q.map Prod.fst).zip (← q.mapM fun entry => f entry.1 entry.2)).map .kept) := by
  induction q with
  | nil => rfl
  | cons entry q ih =>
    rw [List.mapM_cons, List.mapM_cons, ih]
    simp only [bind_assoc, pure_bind, List.map_cons, List.zip_cons_cons]

/-- New rows of the width that is expected are gathered to one matrix. -/
theorem changed_together {c : Nat → Nat} {f : Key → Row α → Except Error (Row α)}
    (hf : ∀ key row new, f key row = .ok new → new.length = c row.length)
    {q : List (Key × Row α)} (hne : q ≠ []) {m : Dense α} (hrows : m.rows = q.map Prod.snd) :
    Together (do
        return ⟨q.map Prod.fst, ← changed (c m.ncol) f (q.map Prod.fst) m, q.map Prod.fst⟩)
      ((q.mapM fun entry => do return RowImage.kept (entry.1, ← f entry.1 entry.2)) >>=
        RowImage.gathered) Eq := by
  have hzip : (q.map Prod.fst).zip m.rows = q := by
    rw [hrows, List.zip_map']
    exact List.map_id q
  rw [mapM_keyed, changed, hzip]
  cases hnew : q.mapM fun entry => f entry.1 entry.2 with
  | error e => exact .error
  | ok rows =>
    have himages := mapM_eq_ok_iff.1 hnew
    have hlength : ∀ row ∈ rows, row.length = c m.ncol := by
      intro row hrow
      obtain ⟨i, hi, rfl⟩ := List.getElem_of_mem hrow
      have hq : i < q.length := himages.length_eq ▸ hi
      have hold : q[i].2 ∈ m.rows := hrows ▸ List.mem_map_of_mem (List.getElem_mem hq)
      exact (hf _ _ _ (himages.get hq hi)).trans (congrArg c (Dense.length_of_mem_rows hold))
    obtain ⟨d, hd, hdcol, hdrows⟩ := Dense.ofRows?_eq_some hlength
    let images := ((q.map Prod.fst).zip rows).map RowImage.kept
    have hcount : (q.map Prod.fst).length = rows.length := by
      rw [List.length_map, himages.length_eq]
    have hkey : images.map RowImage.key = q.map Prod.fst :=
      List.map_map.trans (List.map_fst_zip hcount.le)
    have hhanded : images.map RowImage.handed = q.map Prod.fst :=
      List.map_map.trans (List.map_fst_zip hcount.le)
    have hrow : images.map RowImage.row = rows :=
      List.map_map.trans (List.map_snd_zip hcount.ge)
    have hne' : images ≠ [] := by
      intro h
      rw [h] at hkey
      exact hne (List.map_eq_nil_iff.1 hkey.symm)
    obtain ⟨d', hd', hdcol', hdrows'⟩ := RowImage.gathered_ok (n := c m.ncol) hne' fun image h =>
      hlength _ (hrow ▸ List.mem_map_of_mem h)
    have hsame : d = d' := Dense.ext_rows (hdcol.trans hdcol'.symm) (by rw [hdrows, hdrows', hrow])
    simp only [bind, Except.bind, pure, Except.pure, hd] at hd' ⊢
    change Together _ (RowImage.gathered images) Eq
    rw [hd', hkey, hhanded, hsame]
    exact .ok rfl

/-- What changes rows one by one, to rows whose width depends on the old one, treats each row on its
own. -/
theorem onRows_rowLocal {c : Nat → Nat} {f : Key → Row Float → Except Error (Row Float)}
    {g : Key → Row Scalar → Except Error (Row Scalar)}
    (hf : ∀ key row new, f key row = .ok new → new.length = c row.length) :
    (onRows c f g).RowLocal Cells.IsPlain := by
  let image (key : Key) : Cells Float → Except Error (RowImage Float)
    | .plain row => do return .kept (key, ← f key row)
    | .mixed _ => .error (.fault .type)
  refine ⟨image, fun p block hne hplain hblock => ?_⟩
  obtain ⟨q, rfl⟩ : ∃ q : List (Key × Row Float), p = q.map fun entry => (entry.1, .plain entry.2) := by
    refine ⟨p.map fun entry => (entry.1, Handle.cellsOf entry), ?_⟩
    rw [List.map_map]
    refine (List.map_id p).symm.trans (List.map_congr_left fun entry he => Prod.ext rfl ?_)
    obtain ⟨row, hrow⟩ := (hplain entry he).exists_eq
    simp [Handle.cellsOf, hrow, Cells.plain?]
  have hstacked : Handle.stacked ((q.map Prod.snd).map .plain) = .ok block := by
    rw [List.map_map] at hblock ⊢
    exact hblock
  obtain ⟨m, rfl, hrows⟩ := Handle.rows_of_stacked hstacked
  rw [List.map_map]
  have hplainly : (onRows c f g).plainly (q.map Prod.fst) (.plain m) = (do
      return ⟨q.map Prod.fst, ← changed (c m.ncol) f (q.map Prod.fst) m, q.map Prod.fst⟩) := by
    simp only [plainly, onRows, bind_assoc, pure_bind]
    rfl
  rw [List.mapM_map]
  exact hplainly ▸ changed_together hf (by simpa using hne) hrows

theorem double_rowLocal : double.RowLocal Cells.IsPlain := by
  refine onRows_rowLocal fun key row new hnew => ?_
  cases hnew
  exact List.length_map _

end BlockFunction

end RowAlgebra

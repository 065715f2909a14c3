import RowAlgebra.Tag

/-!
# Sources of tags

A source whose script holds 64-bit words draws known tags in the signed 64-bit range and remains
such a source (`TagSource.next_isWord`). Drawing moves it on (`TagSource.next_ne`), so that whether a
tag has been drawn can be told from the source.
-/

namespace RowAlgebra

/-- A known tag of 64 bits. -/
structure Tag.IsWord (t : Tag) : Prop where
  known : t ≠ .unknown
  lower : -2 ^ 63 ≤ t
  upper : t < 2 ^ 63

namespace TagSource

/-- Whether all draws are 64-bit words. -/
def DrawsWords (s : TagSource) : Prop :=
  ∀ d ∈ s.script, 0 ≤ d ∧ d < 2 ^ 64

theorem draw_isWord {s : TagSource} (h : s.DrawsWords) :
    (0 ≤ s.draw.1 ∧ s.draw.1 < 2 ^ 64) ∧ s.draw.2.DrawsWords := by
  obtain ⟨script, drawn⟩ := s
  cases script with
  | nil =>
    refine ⟨⟨Int.natCast_nonneg _, ?_⟩, h⟩
    exact Int.ofNat_lt.2 (UInt64.toNat_lt _)
  | cons d script => exact List.forall_mem_cons.1 h

theorem nextWithin_succ (fuel : Nat) (s : TagSource) : nextWithin (fuel + 1) s =
    if Tag.ofDraw s.draw.1 = .unknown then nextWithin fuel s.draw.2
    else (Tag.ofDraw s.draw.1, s.draw.2) :=
  rfl

theorem nextWithin_isWord (fuel : Nat) {s : TagSource} (h : s.DrawsWords) :
    (nextWithin fuel s).1.IsWord ∧ (nextWithin fuel s).2.DrawsWords := by
  induction fuel generalizing s with
  | zero =>
    have hone : Tag.IsWord 1 := ⟨by decide, by decide, by decide⟩
    exact ⟨hone, h⟩
  | succ fuel ih =>
    obtain ⟨⟨hlow, hhigh⟩, hrest⟩ := draw_isWord h
    rw [nextWithin_succ]
    by_cases ht : Tag.ofDraw s.draw.1 = .unknown
    · rw [if_pos ht]
      exact ih hrest
    · rw [if_neg ht]
      have hlower : (-2 ^ 63 : Int) ≤ s.draw.1 - 2 ^ 63 := by omega
      have hupper : s.draw.1 - 2 ^ 63 < (2 ^ 63 : Int) := by omega
      exact ⟨⟨ht, hlower, hupper⟩, hrest⟩

theorem next_isWord {s : TagSource} (h : s.DrawsWords) : s.next.1.IsWord ∧ s.next.2.DrawsWords :=
  nextWithin_isWord _ h

/-- Whatever the draws are, the next tag is known. -/
theorem next_known (s : TagSource) : s.next.1 ≠ .unknown := by
  suffices h : ∀ (fuel : Nat) (s : TagSource), (nextWithin fuel s).1 ≠ .unknown from h _ s
  intro fuel
  induction fuel with
  | zero => exact fun _ => (by decide : (1 : Tag) ≠ .unknown)
  | succ fuel ih =>
    intro s
    rw [nextWithin_succ]
    split
    · exact ih s.draw.2
    · next ht => exact ht

/-! ## Progress -/

/-- How far a source has come. -/
def progress (s : TagSource) : Int :=
  s.drawn - s.script.length

theorem progress_draw (s : TagSource) : s.draw.2.progress = s.progress + 1 := by
  obtain ⟨script, drawn⟩ := s
  cases script with
  | nil => simp [draw, progress]
  | cons d script =>
    simp only [draw, progress, List.length_cons]
    omega

theorem progress_le_nextWithin (fuel : Nat) (s : TagSource) :
    s.progress ≤ (nextWithin fuel s).2.progress := by
  induction fuel generalizing s with
  | zero => exact Int.le_refl _
  | succ fuel ih =>
    have hdraw := progress_draw s
    have hrest := ih s.draw.2
    rw [nextWithin_succ]
    split
    · omega
    · exact hdraw ▸ Int.le_add_one (Int.le_refl _)

theorem next_ne (s : TagSource) : s.next.2 ≠ s := by
  intro h
  have hdraw := progress_draw s
  have hrest := progress_le_nextWithin (s.script.length + 1) s.draw.2
  have hnext : s.next.2.progress = s.progress := by rw [h]
  rw [next, nextWithin_succ] at hnext
  split at hnext
  · omega
  · rw [hdraw] at hnext
    omega

end TagSource

end RowAlgebra

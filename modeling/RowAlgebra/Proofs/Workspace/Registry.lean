import Mathlib.Data.List.Nodup
import Mathlib.Data.List.Perm.Subperm
import RowAlgebra.Session

/-!
# Registration

A session that asks for a name gets it if it is free, and else the name with a counter behind it. The
search for the counter ends, since a pool cannot have taken more counters than it has entries, and the
counters of one name give different keys (`Pool.numbered_injective`). What the search returns is
`Pool.Registers`: the key is new, it is the first that is free, and all entries stay as they were.
-/

namespace RowAlgebra

theorem Text.ofString_injective {s t : String} (h : ofString s = ofString t) : s = t := by
  rw [← shown_ofString s, h, shown_ofString]

namespace Pool

def keys (p : Pool) : List Text :=
  p.entries.map Prod.fst

/-- A session is registered for a name under a key: the key is new, it is the name or has the first
free counter behind it, and nothing else changes. -/
structure Registers (p : Pool) (name : Text) (session : SessionId) (key : Text) (q : Pool) : Prop where
  new : key ∉ p.keys
  first : key = name ∨ name ∈ p.keys ∧ ∃ k, 2 ≤ k ∧ key = numbered name k ∧
    ∀ j, 2 ≤ j → j < k → numbered name j ∈ p.keys
  entries : q.entries = p.entries ++ [(key, session)]

variable {p : Pool} {name : Text}

theorem contains_iff {key : Text} : p.contains key = true ↔ key ∈ p.keys := by
  simp [contains, keys]

theorem size_eq (p : Pool) : p.keys.length = p.size := by
  simp [keys, size]

theorem numbered_injective (name : Text) : Function.Injective (numbered name) := by
  intro j k h
  have hpoints := List.append_cancel_left (congrArg Text.points h)
  have htext : (toString j : Text) = toString k := congrArg Text.mk hpoints
  have hdigits := congrArg String.toList (Text.ofString_injective htext)
  have hnumber := congrArg (fun digits => Nat.ofDigitChars 10 digits 0) hdigits
  simpa [Nat.toString_eq_ofList_toDigits] using hnumber

/-- The search stops at the first counter whose key is free, if it comes that far. -/
theorem freeFrom_eq (p : Pool) (name : Text) (fuel k : Nat) :
    ∃ j, p.freeFrom name fuel k = numbered name j ∧ k ≤ j ∧
      (∀ i, k ≤ i → i < j → numbered name i ∈ p.keys) ∧
      (numbered name j ∈ p.keys → j = k + fuel) := by
  induction fuel generalizing k with
  | zero =>
    refine ⟨k, rfl, Nat.le_refl k, ?_, fun _ => rfl⟩
    intro i hle hlt
    omega
  | succ fuel ih =>
    rw [freeFrom]
    by_cases htaken : p.contains (numbered name k) = true
    · rw [if_pos htaken]
      obtain ⟨j, heq, hle, hbelow, hend⟩ := ih (k + 1)
      refine ⟨j, heq, by omega, ?_, ?_⟩
      · intro i hki hij
        by_cases hi : i = k
        · exact hi ▸ contains_iff.1 htaken
        · exact hbelow i (by omega) hij
      · intro hj
        have := hend hj
        omega
    · rw [if_neg htaken]
      refine ⟨k, rfl, Nat.le_refl k, ?_, ?_⟩
      · intro i hle hlt
        omega
      · intro hk
        exact absurd (contains_iff.2 hk) htaken

/-- Not all of the counters that are tried can be taken. -/
theorem exists_free (p : Pool) (name : Text) (k : Nat) :
    ∃ j, k ≤ j ∧ j ≤ k + p.size ∧ numbered name j ∉ p.keys := by
  by_contra hnone
  have htaken : ∀ j, k ≤ j → j ≤ k + p.size → numbered name j ∈ p.keys := by
    intro j hkj hj
    by_contra hfree
    exact hnone ⟨j, hkj, hj, hfree⟩
  have hnodup : ((List.range' k (p.size + 1)).map (numbered name)).Nodup :=
    (List.nodup_range' 1).map (numbered_injective name)
  have hsubset : (List.range' k (p.size + 1)).map (numbered name) ⊆ p.keys := by
    intro key hkey
    obtain ⟨j, hj, rfl⟩ := List.mem_map.1 hkey
    rw [List.mem_range'_1] at hj
    exact htaken j hj.1 (by omega)
  have hlength := (hnodup.subperm hsubset).length_le
  rw [List.length_map, List.length_range', size_eq] at hlength
  omega

theorem registers_register (p : Pool) (name : Text) (session : SessionId) :
    p.Registers name session (p.register name session).1 (p.register name session).2 := by
  have hkey : (p.register name session).1 = p.freeKey name := rfl
  rw [hkey]
  by_cases hname : p.contains name = true
  · rw [freeKey, if_pos hname]
    obtain ⟨j, heq, hle, hbelow, hend⟩ := p.freeFrom_eq name p.size 2
    refine ⟨?_, .inr ⟨contains_iff.1 hname, j, hle, heq, hbelow⟩, ?_⟩
    · intro htaken
      rw [heq] at htaken
      have hj := hend htaken
      obtain ⟨i, hi, hisize, hfree⟩ := p.exists_free name 2
      by_cases hij : i = j
      · exact hfree (hij ▸ htaken)
      · exact hfree (hbelow i hi (by omega))
    · rw [register, freeKey, if_pos hname]
  · rw [freeKey, if_neg hname]
    refine ⟨fun hmem => hname (contains_iff.2 hmem), .inl rfl, ?_⟩
    rw [register, freeKey, if_neg hname]

/-- There is a current session just if one session is registered. -/
theorem current_eq_ok_iff {session : SessionId} :
    p.current = .ok session ↔ ∃ key, p.entries = [(key, session)] := by
  obtain ⟨entries⟩ := p
  cases entries with
  | nil => simp [current]
  | cons e es =>
    cases es with
    | nil =>
      obtain ⟨key, other⟩ := e
      simp [current]
    | cons e' es => simp [current]

theorem mem_remove {session : SessionId} {e : Text × SessionId} :
    e ∈ (p.remove session).entries ↔ e ∈ p.entries ∧ e.2 ≠ session := by
  simp [remove]

end Pool

end RowAlgebra

import Mathlib.Logic.Function.Basic

/-!
# Partial maps and their indexes

A second map may find the entries of a partial map by a key. It is exact if it leads from every key
to the entry that has it, and nowhere else.
-/

namespace Theory

section update

variable {ι α : Type} [DecidableEq ι] {map : ι → Option α} {i j : ι} {a b : α}

theorem update_eq_some :
    Function.update map i (some a) j = some b ↔ (j = i ∧ a = b) ∨ (j ≠ i ∧ map j = some b) := by
  by_cases hj : j = i
  · subst hj
    rw [Function.update_self]
    simp
  · rw [Function.update_of_ne hj]
    simp [hj]

theorem update_eq_none : Function.update map i (some a) j = none ↔ j ≠ i ∧ map j = none := by
  by_cases hj : j = i
  · subst hj
    rw [Function.update_self]
    simp
  · rw [Function.update_of_ne hj]
    simp [hj]

end update

variable {ι κ α : Type} {index : κ → Option ι} {key : α → κ} {map : ι → Option α} {i j : ι} {a b : α}

/-- `index` finds exactly the entries of `map` under their keys. -/
def Indexes (index : κ → Option ι) (key : α → κ) (map : ι → Option α) : Prop :=
  ∀ k i, index k = some i ↔ ∃ a, map i = some a ∧ key a = k

namespace Indexes

theorem empty (key : α → κ) : Indexes (fun _ => none) key (fun _ : ι => none) := by
  intro k i
  constructor
  · intro h
    cases h
  · rintro ⟨a, ha, -⟩
    cases ha

/-- No two entries share a key. -/
theorem eq_of_key_eq (h : Indexes index key map) (hi : map i = some a) (hj : map j = some b)
    (hkey : key a = key b) : i = j := by
  have hfirst := (h (key a) i).mpr ⟨a, hi, rfl⟩
  have hsecond := (h (key a) j).mpr ⟨b, hj, hkey.symm⟩
  exact Option.some.inj (hfirst.symm.trans hsecond)

variable [DecidableEq ι] [DecidableEq κ]

/-- A new entry is entered under a key that led nowhere. -/
theorem insert (h : Indexes index key map) (hnew : map i = none) (hfree : index (key a) = none) :
    Indexes (Function.update index (key a) (some i)) key (Function.update map i (some a)) := by
  intro k j
  by_cases hk : k = key a
  · subst hk
    rw [Function.update_self]
    constructor
    · intro hj
      obtain rfl := Option.some.inj hj
      exact ⟨a, Function.update_self .., rfl⟩
    · rintro ⟨b, hb, hkey⟩
      by_cases hj : j = i
      · rw [hj]
      · rw [Function.update_of_ne hj] at hb
        cases hfree.symm.trans ((h (key a) j).mpr ⟨b, hb, hkey⟩)
  · rw [Function.update_of_ne hk, h k j]
    by_cases hj : j = i
    · subst hj
      rw [Function.update_self, hnew]
      constructor
      · rintro ⟨b, hb, -⟩
        cases hb
      · rintro ⟨b, hb, hkey⟩
        cases hb
        exact (hk hkey.symm).elim
    · rw [Function.update_of_ne hj]

/-- An entry is removed together with its key. -/
theorem remove (h : Indexes index key map) (hi : map i = some a) :
    Indexes (Function.update index (key a) none) key (Function.update map i none) := by
  intro k j
  by_cases hk : k = key a
  · subst hk
    rw [Function.update_self]
    constructor
    · intro hj
      cases hj
    · rintro ⟨b, hb, hkey⟩
      by_cases hj : j = i
      · rw [hj, Function.update_self] at hb
        cases hb
      · rw [Function.update_of_ne hj] at hb
        exact (hj (h.eq_of_key_eq hb hi hkey)).elim
  · rw [Function.update_of_ne hk, h k j]
    by_cases hj : j = i
    · subst hj
      rw [Function.update_self, hi]
      constructor
      · rintro ⟨b, hb, hkey⟩
        cases hb
        exact (hk hkey.symm).elim
      · rintro ⟨b, hb, -⟩
        cases hb
    · rw [Function.update_of_ne hj]

end Indexes

end Theory

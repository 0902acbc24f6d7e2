import Mathlib.Data.List.Basic

/-!
# Computations that read memory at known places

A computation over a block of memory, seen through the offsets it reads. It either returns or dies
on the way; the reads it made until then count in both cases.
-/

namespace Theory

structure Access (α : Type) where
  reads : List Nat
  /-- `none` if the computation died. -/
  result : Option α

namespace Access

variable {α β : Type}

/-- The computation dies without reading. -/
def fault : Access α := ⟨[], none⟩

/-- Read `size` cells from `offset` on. -/
def readAt {γ : Type} (memory : Nat → γ) (offset size : Nat) : Access (List γ) :=
  ⟨List.range' offset size, some ((List.range' offset size).map memory)⟩

instance : Monad Access where
  pure a := ⟨[], some a⟩
  bind r next :=
    match r.result with
    | none => ⟨r.reads, none⟩
    | some a => ⟨r.reads ++ (next a).reads, (next a).result⟩

@[simp] theorem result_pure (a : α) : (pure a : Access α).result = some a := rfl

theorem reads_bind_of_some {r : Access α} {a : α} (h : r.result = some a) (next : α → Access β) :
    (r >>= next).reads = r.reads ++ (next a).reads := by
  simp only [Bind.bind, h]

theorem reads_bind_of_none {r : Access α} (h : r.result = none) (next : α → Access β) :
    (r >>= next).reads = r.reads := by
  simp only [Bind.bind, h]

theorem result_bind (r : Access α) (next : α → Access β) :
    (r >>= next).result = r.result.bind fun a => (next a).result := by
  cases h : r.result with
  | none => simp only [Bind.bind, h, Option.bind_none]
  | some a => simp only [Bind.bind, h, Option.bind_some]

/-- Every read lies in the first `size` cells. -/
def Within (size : Nat) (r : Access α) : Prop := ∀ offset ∈ r.reads, offset < size

@[simp] theorem within_pure (size : Nat) (a : α) : (pure a : Access α).Within size :=
  fun _ h => (List.not_mem_nil h).elim

@[simp] theorem within_fault (size : Nat) : (fault : Access α).Within size :=
  fun _ h => (List.not_mem_nil h).elim

/-- A sequence stays within a block exactly if its first part does and, unless that dies, so does
the second. -/
theorem within_bind {size : Nat} {r : Access α} {next : α → Access β} :
    (r >>= next).Within size ↔ r.Within size ∧ ∀ a, r.result = some a → (next a).Within size := by
  cases h : r.result with
  | none => simp [Within, reads_bind_of_none h]
  | some a =>
      simp only [Within, reads_bind_of_some h, List.mem_append, Option.some.injEq, forall_eq']
      constructor
      · intro hall
        exact ⟨fun offset ho => hall offset (.inl ho), fun offset ho => hall offset (.inr ho)⟩
      · rintro ⟨hfirst, hsecond⟩ offset (ho | ho)
        · exact hfirst offset ho
        · exact hsecond offset ho

/-- Reading a non-empty range stays within a block exactly if the range ends there at the latest. -/
theorem within_readAt {γ : Type} {memory : Nat → γ} {size offset count : Nat} (hcount : 0 < count) :
    (readAt memory offset count).Within size ↔ offset + count ≤ size := by
  simp only [Within, readAt, List.mem_range'_1]
  constructor
  · intro h
    have := h (offset + count - 1) (by omega)
    omega
  · intro h i hi
    omega

end Access

end Theory

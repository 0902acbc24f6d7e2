import Mathlib.Data.List.AList
import Mathlib.Logic.Function.Basic

/-!
# A store of typed values

Every key of the store is absent or holds a text, a set of members with scores, or a list. A write
to a value of another kind is refused. Several writers that know nothing of each other share the
store, so the questions are which writes leave somebody's item alone, and what is read at a place
after all of them.
-/

namespace Theory

inductive Value (α : Type) where
  | text (value : α)
  | scores (members : AList fun _ : α => Int)
  | list (items : List α)

inductive Write (α : Type) where
  | set (key value : α)
  /-- Time is no part of the store, so the value stays. -/
  | expire (key : α)
  | del (key : α)
  | zadd (key : α) (score : Int) (member : α)
  | zrem (key member : α)
  | lpush (key value : α)

/-- What every key holds. -/
abbrev Keyspace (α : Type) := α → Option (Value α)

variable {α : Type}

def Write.key : Write α → α
  | .set key _ => key
  | .expire key => key
  | .del key => key
  | .zadd key _ _ => key
  | .zrem key _ => key
  | .lpush key _ => key

/-! ### Readings -/

namespace Value

def textOf : Option (Value α) → Option α
  | some (.text value) => some value
  | _ => none

/-- A member can be added. -/
def takesMembers : Option (Value α) → Bool
  | none => true
  | some (.scores _) => true
  | _ => false

/-- A set without members goes away. -/
def ofMembers (members : AList fun _ : α => Int) : Option (Value α) :=
  match members.entries with
  | [] => none
  | _ :: _ => some (.scores members)

section readings

variable {members : AList fun _ : α => Int} {held : Option (Value α)} {member : α}

@[simp] theorem takesMembers_scores : takesMembers (some (.scores members)) = true := rfl

@[simp] theorem textOf_ofMembers : textOf (ofMembers members) = none := by
  unfold ofMembers
  split <;> rfl

@[simp] theorem takesMembers_ofMembers : takesMembers (ofMembers members) = true := by
  unfold ofMembers
  split <;> rfl

variable [DecidableEq α]

def scoreOf (member : α) : Option (Value α) → Option Int
  | some (.scores members) => members.lookup member
  | _ => none

@[simp] theorem scoreOf_none : scoreOf member none = none := rfl

@[simp] theorem scoreOf_scores : scoreOf member (some (.scores members)) = members.lookup member := rfl

@[simp] theorem scoreOf_ofMembers : scoreOf member (ofMembers members) = members.lookup member := by
  unfold ofMembers
  split
  · rename_i hempty
    have hnone : members.lookup member = none := by
      rw [AList.lookup_eq_none, AList.mem_keys, AList.keys, hempty]
      exact List.not_mem_nil
    exact hnone.symm
  · rfl

theorem scoreOf_eq_none (h : takesMembers held = false) : scoreOf member held = none := by
  cases held with
  | none => rfl
  | some value =>
      cases value with
      | scores members => cases h
      | text value => rfl
      | list items => rfl

end readings

end Value

/-! ### Writes -/

section next

variable [DecidableEq α]

/-- What the key of the write holds afterwards. -/
def Write.next : Write α → Option (Value α) → Option (Value α)
  | .set _ value, _ => some (.text value)
  | .del _, _ => none
  | .zadd _ score member, none => some (.scores (AList.singleton member score))
  | .zadd _ score member, some (.scores members) => some (.scores (members.insert member score))
  | .zrem _ member, some (.scores members) => Value.ofMembers (members.erase member)
  | .lpush _ value, none => some (.list [value])
  | .lpush _ value, some (.list items) => some (.list (value :: items))
  | _, held => held

end next

/-- The write may change the text under the key. -/
def Write.DisturbsText (key : α) : Write α → Prop
  | .set key' _ => key' = key
  | .del key' => key' = key
  | _ => False

/-- The write may change what kind of value the key holds, the absence of one apart. -/
def Write.Retypes (key : α) : Write α → Prop
  | .set key' _ => key' = key
  | .del key' => key' = key
  | .lpush key' _ => key' = key
  | _ => False

/-- The write may change the score of the member under the key, or whether it can be added. -/
def Write.DisturbsMember (key member : α) : Write α → Prop
  | .zadd key' _ member' => key' = key ∧ member' = member
  | .zrem key' member' => key' = key ∧ member' = member
  | w => w.Retypes key

theorem Write.Retypes.disturbs {w : Write α} {key : α} (h : w.Retypes key) (member : α) :
    w.DisturbsMember key member := by
  cases w with
  | set | del | lpush => exact h
  | expire | zadd | zrem => exact h.elim

/-- Something that stands in the store because somebody wrote it. -/
inductive Item (α : Type) where
  | text (key value : α)
  | member (key member : α)
deriving DecidableEq

/-- The item that the write makes. -/
def Write.item? : Write α → Option (Item α)
  | .set key value => some (.text key value)
  | .zadd key _ member => some (.member key member)
  | _ => none

/-- The write leaves the item as it is. -/
def Write.Spares : Write α → Item α → Prop
  | .set key value, .text key' value' => key = key' → value = value'
  | .set key _, .member key' _ => key ≠ key'
  | .del key, .text key' _ => key ≠ key'
  | .del key, .member key' _ => key ≠ key'
  | .zrem key member, .member key' member' => key = key' → member ≠ member'
  | _, _ => True

instance [DecidableEq α] (w : Write α) (e : Item α) : Decidable (w.Spares e) :=
  match w, e with
  | .set key value, .text key' value' => inferInstanceAs (Decidable (key = key' → value = value'))
  | .set key _, .member key' _ => inferInstanceAs (Decidable (key ≠ key'))
  | .del key, .text key' _ => inferInstanceAs (Decidable (key ≠ key'))
  | .del key, .member key' _ => inferInstanceAs (Decidable (key ≠ key'))
  | .zrem key member, .member key' member' => inferInstanceAs (Decidable (key = key' → member ≠ member'))
  | .zrem _ _, .text _ _ => isTrue trivial
  | .expire _, _ => isTrue trivial
  | .zadd _ _ _, _ => isTrue trivial
  | .lpush _ _, _ => isTrue trivial

namespace Keyspace

def textAt (r : Keyspace α) (key : α) : Option α := Value.textOf (r key)

def takesMembers (r : Keyspace α) (key : α) : Bool := Value.takesMembers (r key)

variable [DecidableEq α]

def scoreAt (r : Keyspace α) (key member : α) : Option Int := Value.scoreOf member (r key)

def apply (r : Keyspace α) (w : Write α) : Keyspace α := Function.update r w.key (w.next (r w.key))

def Holds (r : Keyspace α) : Item α → Prop
  | .text key value => r.textAt key = some value
  | .member key member => (r.scoreAt key member).isSome = true

/-- The write is not refused because of what the key holds. -/
def Takes (r : Keyspace α) : Write α → Prop
  | .zadd key _ _ => r.takesMembers key = true
  | _ => True

instance (r : Keyspace α) (w : Write α) : Decidable (r.Takes w) :=
  match w with
  | .zadd key _ _ => inferInstanceAs (Decidable (r.takesMembers key = true))
  | .set _ _ => isTrue trivial
  | .expire _ => isTrue trivial
  | .del _ => isTrue trivial
  | .zrem _ _ => isTrue trivial
  | .lpush _ _ => isTrue trivial

section apply

variable {r : Keyspace α} {w : Write α} {e : Item α} {key member : α}

/-- A reading of the key of a write is a reading of its next value; other keys keep theirs. -/
theorem apply_apply (r : Keyspace α) (w : Write α) (key : α) :
    r.apply w key = if w.key = key then w.next (r key) else r key := by
  unfold apply
  split
  · rename_i hkey
    rw [hkey, Function.update_self]
  · rename_i hkey
    exact Function.update_of_ne (Ne.symm hkey) _ _

@[simp] theorem apply_expire (r : Keyspace α) (key : α) : r.apply (.expire key) = r :=
  Function.update_eq_self key r

theorem textAt_apply (h : ¬ w.DisturbsText key) : (r.apply w).textAt key = r.textAt key := by
  unfold textAt
  rw [apply_apply]
  split
  · rename_i hkey
    cases w with
    | set key' value => exact (h hkey).elim
    | del key' => exact (h hkey).elim
    | expire key' => rfl
    | zadd key' score member | lpush key' value =>
        cases r key with
        | none => rfl
        | some held => cases held <;> rfl
    | zrem key' member =>
        cases r key with
        | none => rfl
        | some held =>
            cases held with
            | scores members => exact Value.textOf_ofMembers
            | text value => rfl
            | list items => rfl
  · rfl

theorem textAt_set (r : Keyspace α) (key value : α) : (r.apply (.set key value)).textAt key = some value := by
  rw [textAt, apply, Write.key, Function.update_self]
  rfl

/-- Members come and go without changing whether one can be added. -/
theorem takesMembers_apply (h : ¬ w.Retypes key) : (r.apply w).takesMembers key = r.takesMembers key := by
  unfold takesMembers
  rw [apply_apply]
  split
  · rename_i hkey
    cases w with
    | set key' value => exact (h hkey).elim
    | del key' => exact (h hkey).elim
    | lpush key' value => exact (h hkey).elim
    | expire key' => rfl
    | zadd key' score member =>
        cases r key with
        | none => rfl
        | some held => cases held <;> rfl
    | zrem key' member =>
        cases r key with
        | none => rfl
        | some held =>
            cases held with
            | scores members => exact Value.takesMembers_ofMembers
            | text value => rfl
            | list items => rfl
  · rfl

theorem scoreAt_apply (h : ¬ w.DisturbsMember key member) :
    (r.apply w).scoreAt key member = r.scoreAt key member := by
  unfold scoreAt
  rw [apply_apply]
  split
  · rename_i hkey
    cases w with
    | set key' value => exact (h hkey).elim
    | del key' => exact (h hkey).elim
    | lpush key' value => exact (h hkey).elim
    | expire key' => rfl
    | zadd key' score member' =>
        have hne : member ≠ member' := fun hmember => h ⟨hkey, hmember.symm⟩
        cases r key with
        | none => simp [Write.next, ← AList.insert_empty, AList.lookup_insert_ne hne]
        | some held =>
            cases held with
            | scores members => simp [Write.next, AList.lookup_insert_ne hne]
            | text value => rfl
            | list items => rfl
    | zrem key' member' =>
        have hne : member ≠ member' := fun hmember => h ⟨hkey, hmember.symm⟩
        cases r key with
        | none => rfl
        | some held =>
            cases held with
            | scores members => simp [Write.next, AList.lookup_erase_ne hne]
            | text value => rfl
            | list items => rfl
  · rfl

theorem scoreAt_zadd (r : Keyspace α) (key member : α) (score : Int) :
    (r.apply (.zadd key score member)).scoreAt key member =
      if r.takesMembers key then some score else none := by
  rw [scoreAt, apply, Write.key, Function.update_self, takesMembers]
  cases r key with
  | none => simp [Write.next, Value.takesMembers, ← AList.insert_empty]
  | some held =>
      cases held with
      | scores members => simp [Write.next]
      | text value => rfl
      | list items => rfl

theorem scoreAt_zrem (r : Keyspace α) (key member : α) :
    (r.apply (.zrem key member)).scoreAt key member = none := by
  rw [scoreAt, apply, Write.key, Function.update_self]
  cases r key with
  | none => rfl
  | some held =>
      cases held with
      | scores members => simp [Write.next]
      | text value => rfl
      | list items => rfl

theorem takesMembers_of_scoreAt (h : (r.scoreAt key member).isSome = true) : r.takesMembers key = true := by
  by_contra htakes
  rw [scoreAt, Value.scoreOf_eq_none (Bool.eq_false_iff.mpr htakes)] at h
  cases h

/-- A list cannot take the place of a set. -/
theorem scoreAt_lpush (h : (r.scoreAt key member).isSome = true) (value : α) :
    (r.apply (.lpush key value)).scoreAt key member = r.scoreAt key member := by
  rw [scoreAt] at h
  rw [scoreAt, scoreAt, apply, Write.key, Function.update_self]
  cases hheld : r key with
  | none =>
      rw [hheld] at h
      cases h
  | some held =>
      cases held with
      | scores members => rfl
      | text value | list items =>
          rw [hheld] at h
          cases h

/-- **An item survives a write** exactly if the write spares it. -/
theorem holds_apply_iff (h : r.Holds e) : (r.apply w).Holds e ↔ w.Spares e := by
  cases e with
  | text key value =>
      have hkept : ¬ w.DisturbsText key → (r.apply w).Holds (.text key value) := by
        intro hundisturbed
        rw [Holds, textAt_apply hundisturbed]
        exact h
      cases w with
      | set key' value' =>
          by_cases hkey : key' = key
          · subst hkey
            rw [Holds, textAt_set, Option.some_inj]
            exact ⟨fun heq _ => heq, fun hspares => hspares rfl⟩
          · exact iff_of_true (hkept hkey) fun heq => (hkey heq).elim
      | del key' =>
          by_cases hkey : key' = key
          · subst hkey
            rw [Holds, textAt, apply, Write.key, Function.update_self]
            exact iff_of_false (Option.some_ne_none value ·.symm) fun hspares => hspares rfl
          · exact iff_of_true (hkept hkey) hkey
      | expire | zadd | zrem | lpush => exact iff_of_true (hkept id) trivial
  | member key member =>
      have hkept : ¬ w.DisturbsMember key member → (r.apply w).Holds (.member key member) := by
        intro hundisturbed
        rw [Holds, scoreAt_apply hundisturbed]
        exact h
      cases w with
      | set key' | del key' =>
          by_cases hkey : key' = key
          · subst hkey
            rw [Holds, scoreAt, apply, Write.key, Function.update_self]
            exact iff_of_false Bool.false_ne_true fun hspares => hspares rfl
          · exact iff_of_true (hkept hkey) hkey
      | zadd key' score member' =>
          refine iff_of_true ?_ trivial
          by_cases hsame : key' = key ∧ member' = member
          · obtain ⟨rfl, rfl⟩ := hsame
            rw [Holds, scoreAt_zadd, if_pos (takesMembers_of_scoreAt h)]
            rfl
          · exact hkept hsame
      | zrem key' member' =>
          by_cases hsame : key' = key ∧ member' = member
          · obtain ⟨rfl, rfl⟩ := hsame
            rw [Holds, scoreAt_zrem]
            exact iff_of_false Bool.false_ne_true fun hspares => hspares rfl rfl
          · exact iff_of_true (hkept hsame) fun hkey hmember => hsame ⟨hkey, hmember⟩
      | lpush key' value =>
          refine iff_of_true ?_ trivial
          by_cases hkey : key' = key
          · subst hkey
            rw [Holds, scoreAt_lpush h]
            exact h
          · exact hkept hkey
      | expire key' => exact iff_of_true (hkept id) trivial

/-- A write that is taken makes its item. -/
theorem holds_apply_item (hitem : w.item? = some e) : (r.apply w).Holds e ↔ r.Takes w := by
  cases w with
  | set key value =>
      cases hitem
      exact iff_of_true (textAt_set r key value) trivial
  | zadd key score member =>
      cases hitem
      simp only [Holds, Takes, scoreAt_zadd]
      cases r.takesMembers key <;> simp
  | _ => cases hitem

end apply

end Keyspace

end Theory

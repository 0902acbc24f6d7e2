import Mathlib.Data.List.Chain
import LinkedonPush.Theory.Keyspace

/-!
# Entries that expire

The store in time: an entry may have a deadline, behind which nobody finds it any more. A text that
is written once and then renewed is a lease. It stands as long as no renewal comes too late, and a
renewal that does finds nothing to renew.
-/

namespace Theory

variable {α : Type}

/-- An entry, and the last moment at which it is found. -/
structure Leased (α : Type) where
  value : Value α
  deadline : Option Nat

/-- A write at its time; `ttl` is how long an `expire` lets the entry last. -/
structure Stamped (α : Type) where
  time : Nat
  write : Write α
  ttl : Nat

/-- The moment is not behind the deadline. -/
def Within (now : Nat) (deadline : Option Nat) : Prop := ∀ d ∈ deadline, now ≤ d

instance (now : Nat) (deadline : Option Nat) : Decidable (Within now deadline) :=
  match deadline with
  | none => isTrue fun _ h => nomatch h
  | some d => decidable_of_iff (now ≤ d) (by simp [Within])

theorem within_none (now : Nat) : Within now none := fun _ h => nomatch h

theorem within_some {now d : Nat} : Within now (some d) ↔ now ≤ d := by simp [Within]

theorem Within.anti {now later : Nat} {deadline : Option Nat} (h : Within later deadline) (hle : now ≤ later) :
    Within now deadline := fun d hd => hle.trans (h d hd)

/-- What is found of an entry. -/
def current (now : Nat) (held : Option (Leased α)) : Option (Leased α) :=
  held.filter fun e => decide (Within now e.deadline)

def textIn (now : Nat) (held : Option (Leased α)) : Option α := Value.textOf ((current now held).map Leased.value)

/-- No text is found from now on. -/
def Textless (now : Nat) (held : Option (Leased α)) : Prop := ∀ later, now ≤ later → textIn later held = none

section current

variable {now : Nat} {deadline : Option Nat} {value : Value α} {held : Option (Leased α)} {v : α}

theorem current_of_within (h : Within now deadline) : current now (some ⟨value, deadline⟩) = some ⟨value, deadline⟩ :=
  Option.filter_some_pos (decide_eq_true h)

theorem current_of_not_within (h : ¬ Within now deadline) : current now (some ⟨value, deadline⟩) = none :=
  Option.filter_some_neg (by simpa using h)

theorem textless_none (now : Nat) : Textless now (none : Option (Leased α)) := fun _ _ => rfl

/-- Only a text that is still found is read. -/
theorem textIn_text : textIn now (some ⟨.text v, deadline⟩) = some v ↔ Within now deadline := by
  by_cases h : Within now deadline
  · rw [textIn, current_of_within h]
    exact iff_of_true rfl h
  · rw [textIn, current_of_not_within h]
    exact iff_of_false (fun heq => nomatch heq) h

theorem textIn_text_eq {w : α} (h : textIn now (some ⟨.text v, deadline⟩) = some w) : w = v := by
  by_cases hwithin : Within now deadline
  · rw [textIn, current_of_within hwithin] at h
    exact (Option.some.inj h).symm
  · rw [textIn, current_of_not_within hwithin] at h
    cases h

theorem textless_of_not_within (h : ¬ Within now deadline) : Textless now (some (⟨value, deadline⟩ : Leased α)) := by
  intro later hlater
  have hlapsed : ¬ Within later deadline := fun hwithin => h (hwithin.anti hlater)
  rw [textIn, current_of_not_within hlapsed]
  rfl

/-- A value of another kind is no text. -/
theorem textless_of_textOf (h : Value.textOf (some value) = none) (deadline : Option Nat) (now : Nat) :
    Textless now (some (⟨value, deadline⟩ : Leased α)) := by
  intro later _
  by_cases hwithin : Within later deadline
  · rw [textIn, current_of_within hwithin]
    exact h
  · rw [textIn, current_of_not_within hwithin]
    rfl

theorem Textless.later {later : Nat} (h : Textless now held) (hle : now ≤ later) : Textless later held :=
  fun t ht => h t (hle.trans ht)

theorem Textless.current (h : Textless now held) : Value.textOf ((current now held).map Leased.value) = none :=
  h now le_rfl

end current

/-! ### Writes -/

namespace Stamped

variable [DecidableEq α]

/-- What the key of the write holds afterwards. -/
def next (w : Stamped α) (held : Option (Leased α)) : Option (Leased α) :=
  match w.write with
  | .set _ value => some ⟨.text value, none⟩
  | .expire _ =>
      if w.ttl = 0 then none
      else (current w.time held).map fun e => { e with deadline := some (w.time + w.ttl) }
  | _ =>
      (w.write.next ((current w.time held).map Leased.value)).map fun value =>
        ⟨value, (current w.time held).bind Leased.deadline⟩

def Sets (key : α) (w : Stamped α) : Prop := ∃ value, w.write = .set key value

/-- The time of a renewal and how long it lasts. -/
def renewal? (key : α) (w : Stamped α) : Option (Nat × Nat) :=
  match w.write with
  | .expire key' => if key' = key then some (w.time, w.ttl) else none
  | _ => none

variable {w : Stamped α} {held : Option (Leased α)} {key v : α} {deadline : Option Nat}

/-- Only a `set` brings a text back. -/
theorem next_textless (hset : ¬ w.Sets w.write.key) (h : Textless w.time held) : Textless w.time (w.next held) := by
  have hcurrent := h.current
  obtain ⟨time, write, ttl⟩ := w
  cases write with
  | set key' value => exact (hset ⟨value, rfl⟩).elim
  | del key' => exact textless_none time
  | expire key' =>
      simp only [next]
      split
      · exact textless_none time
      · cases hheld : current time held with
        | none => exact textless_none time
        | some e =>
            rw [hheld] at hcurrent
            exact textless_of_textOf hcurrent _ time
  | zadd key' score member | zrem key' member | lpush key' value =>
      simp only [next]
      generalize (current time held).bind Leased.deadline = deadline
      revert hcurrent
      generalize (current time held).map Leased.value = found
      intro hcurrent
      cases found with
      | none => first | exact textless_none time | exact textless_of_textOf rfl _ time
      | some value =>
          cases value with
          | text value => cases hcurrent
          | list items => exact textless_of_textOf rfl _ time
          | scores members =>
              first
              | exact textless_of_textOf rfl _ time
              | simp only [Write.next, Value.ofMembers]
                split
                · exact textless_none time
                · exact textless_of_textOf rfl _ time

/-- A text stays, and a renewal moves its deadline. -/
theorem next_text (hwithin : Within w.time deadline) (hset : ¬ w.Sets w.write.key)
    (hdel : w.write ≠ .del w.write.key) :
    w.next (some ⟨.text v, deadline⟩) =
      match w.renewal? w.write.key with
      | none => some ⟨.text v, deadline⟩
      | some (time, ttl) => if ttl = 0 then none else some ⟨.text v, some (time + ttl)⟩ := by
  have hcurrent : current w.time (some ⟨.text v, deadline⟩) = some ⟨.text v, deadline⟩ := current_of_within hwithin
  obtain ⟨time, write, ttl⟩ := w
  cases write with
  | set key' value => exact (hset ⟨value, rfl⟩).elim
  | del key' => exact (hdel rfl).elim
  | expire key' =>
      simp only [next, renewal?, Write.key, if_true]
      rw [hcurrent]
      rfl
  | zadd key' score member | zrem key' member | lpush key' value =>
      simp only [next, renewal?]
      rw [hcurrent]
      rfl

theorem renewal?_of_ne (hkey : w.write.key ≠ key) : w.renewal? key = none := by
  obtain ⟨time, write, ttl⟩ := w
  cases write with
  | expire key' => exact if_neg hkey
  | _ => rfl

theorem renewal?_time {time ttl : Nat} (h : w.renewal? key = some (time, ttl)) : time = w.time := by
  unfold renewal? at h
  split at h
  · obtain ⟨-, heq⟩ := Option.ite_none_right_eq_some.mp h
    exact (Prod.mk.inj (Option.some.inj heq)).1.symm
  · cases h

end Stamped

/-! ### The lease -/

/-- A text with the deadline is found at the end of the renewals, if it is never deleted. -/
def Lasts (deadline : Option Nat) : List (Nat × Nat) → Nat → Prop
  | [], now => Within now deadline
  | (time, ttl) :: renewals, now => Within time deadline ∧ ttl ≠ 0 ∧ Lasts (some (time + ttl)) renewals now

section lasts

variable {deadline : Option Nat} {renewals : List (Nat × Nat)} {now time : Nat}

/-- It has not lapsed before the first of them. -/
theorem Lasts.within (h : Lasts deadline renewals now) (hrenewals : ∀ r ∈ renewals, time ≤ r.1) (hnow : time ≤ now) :
    Within time deadline := by
  cases renewals with
  | nil => exact Within.anti h hnow
  | cons r renewals => exact h.1.anti (hrenewals r List.mem_cons_self)

/-- Renewals that all last equally long must not be further apart than that. -/
theorem lasts_some_iff {ttl d : Nat} (httl : ttl ≠ 0) (hrenewals : ∀ r ∈ renewals, r.2 = ttl) :
    Lasts (some (d + ttl)) renewals now ↔
      List.IsChain (fun a b => b ≤ a + ttl) (d :: (renewals.map Prod.fst ++ [now])) := by
  induction renewals generalizing d with
  | nil =>
      rw [List.map_nil, List.nil_append, List.isChain_pair]
      exact within_some
  | cons r renewals ih =>
      obtain ⟨time, ttl'⟩ := r
      obtain ⟨rfl, hrest⟩ := List.forall_mem_cons.mp hrenewals
      rw [List.map_cons, List.cons_append, List.isChain_cons_cons, ← ih hrest, ← within_some]
      exact ⟨fun h => ⟨h.1, h.2.2⟩, fun h => ⟨h.1, httl, h.2⟩⟩

theorem lasts_none_iff {ttl : Nat} (httl : ttl ≠ 0) (hrenewals : ∀ r ∈ renewals, r.2 = ttl) :
    Lasts none renewals now ↔ List.IsChain (fun a b => b ≤ a + ttl) (renewals.map Prod.fst ++ [now]) := by
  cases renewals with
  | nil => exact iff_of_true (within_none now) (List.isChain_singleton now)
  | cons r renewals =>
      obtain ⟨time, ttl'⟩ := r
      obtain ⟨rfl, hrest⟩ := List.forall_mem_cons.mp hrenewals
      rw [List.map_cons, List.cons_append, ← lasts_some_iff httl hrest]
      exact ⟨fun h => h.2.2, fun h => ⟨within_none time, httl, h⟩⟩

end lasts

/-- What every key holds, with its deadline. -/
abbrev Leasespace (α : Type) := α → Option (Leased α)

namespace Leasespace

def textAt (now : Nat) (r : Leasespace α) (key : α) : Option α := textIn now (r key)

variable [DecidableEq α]

def apply (r : Leasespace α) (w : Stamped α) : Leasespace α := Function.update r w.write.key (w.next (r w.write.key))

def run (r : Leasespace α) (writes : List (Stamped α)) : Leasespace α := writes.foldl apply r

section run

variable {r : Leasespace α} {w : Stamped α} {writes before after : List (Stamped α)} {key v value : α}
  {deadline : Option Nat} {now start : Nat}

theorem apply_of_ne (hkey : w.write.key ≠ key) : r.apply w key = r key := Function.update_of_ne (Ne.symm hkey) ..

theorem apply_self (r : Leasespace α) (w : Stamped α) : r.apply w w.write.key = w.next (r w.write.key) :=
  Function.update_self ..

theorem textless_apply (h : Textless start (r key)) (hstart : start ≤ w.time) (hset : ¬ w.Sets key) :
    Textless w.time (r.apply w key) := by
  by_cases hkey : w.write.key = key
  · rw [← hkey, apply_self]
    apply Stamped.next_textless
    · rwa [hkey]
    · rw [hkey]
      exact h.later hstart
  · rw [apply_of_ne hkey]
    exact h.later hstart

/-- What has lapsed does not come back by itself. -/
theorem textAt_run_of_textless (h : Textless start (r key)) (hset : ∀ w ∈ writes, ¬ w.Sets key)
    (htimes : List.IsChain (· ≤ ·) (start :: (writes.map Stamped.time ++ [now]))) :
    (r.run writes).textAt now key = none := by
  induction writes generalizing r start with
  | nil =>
      rw [List.map_nil, List.nil_append, List.isChain_pair] at htimes
      exact h now htimes
  | cons w writes ih =>
      rw [List.map_cons, List.cons_append, List.isChain_cons_cons] at htimes
      obtain ⟨hfirst, hrest⟩ := List.forall_mem_cons.mp hset
      exact ih (textless_apply h htimes.1 hfirst) hrest htimes.2

theorem le_of_chain {times : List Nat} (htimes : List.IsChain (· ≤ ·) (start :: times)) : ∀ t ∈ times, start ≤ t :=
  fun _ ht => htimes.rel_cons ht

/-- **The lease.** A text that nobody sets again is found exactly if nobody has deleted it and no
renewal came too late. -/
theorem textAt_run_iff (hheld : r key = some ⟨.text v, deadline⟩) (hset : ∀ w ∈ writes, ¬ w.Sets key)
    (htimes : List.IsChain (· ≤ ·) (start :: (writes.map Stamped.time ++ [now]))) :
    (r.run writes).textAt now key = some value ↔
      value = v ∧ (∀ w ∈ writes, w.write ≠ .del key) ∧
        Lasts deadline (writes.filterMap (Stamped.renewal? key)) now := by
  induction writes generalizing r deadline start with
  | nil =>
      rw [textAt, run, List.foldl_nil, hheld]
      constructor
      · intro h
        obtain rfl := textIn_text_eq h
        exact ⟨rfl, fun _ hmem => (List.not_mem_nil hmem).elim, textIn_text.mp h⟩
      · rintro ⟨rfl, -, hlasts⟩
        exact textIn_text.mpr hlasts
  | cons w writes ih =>
      rw [List.map_cons, List.cons_append, List.isChain_cons_cons] at htimes
      obtain ⟨hstart, htimes⟩ := htimes
      obtain ⟨hfirst, hrest⟩ := List.forall_mem_cons.mp hset
      change ((r.apply w).run writes).textAt now key = some value ↔ _
      rw [List.forall_mem_cons, List.filterMap_cons]
      -- once it is gone it stays away
      have hgone : Textless w.time (r.apply w key) → ((r.apply w).run writes).textAt now key ≠ some value := by
        intro htextless hfound
        rw [textAt_run_of_textless htextless hrest htimes] at hfound
        cases hfound
      by_cases hkey : w.write.key = key
      · by_cases hdel : w.write = .del key
        · refine iff_of_false (hgone ?_) fun h => h.2.1.1 hdel
          rw [← hkey, apply_self, Stamped.next, hdel]
          exact textless_none w.time
        · by_cases hwithin : Within w.time deadline
          · have happly := apply_self r w
            rw [hkey, hheld, Stamped.next_text hwithin (by rwa [hkey]) (by rwa [hkey]), hkey] at happly
            cases hrenewal : w.renewal? key with
            | none =>
                rw [hrenewal] at happly
                rw [ih happly hrest htimes]
                exact ⟨fun h => ⟨h.1, ⟨hdel, h.2.1⟩, h.2.2⟩, fun h => ⟨h.1, h.2.1.2, h.2.2⟩⟩
            | some renewal =>
                obtain ⟨time, ttl⟩ := renewal
                obtain rfl := Stamped.renewal?_time hrenewal
                rw [hrenewal] at happly
                dsimp only at happly ⊢
                by_cases httl : ttl = 0
                · rw [if_pos httl] at happly
                  refine iff_of_false (hgone ?_) fun h => h.2.2.2.1 httl
                  rw [happly]
                  exact textless_none w.time
                · rw [if_neg httl] at happly
                  rw [ih happly hrest htimes]
                  exact ⟨fun h => ⟨h.1, ⟨hdel, h.2.1⟩, hwithin, httl, h.2.2⟩,
                    fun h => ⟨h.1, h.2.1.2, h.2.2.2.2⟩⟩
          · -- it has lapsed before this write
            have htextless : Textless w.time (r key) := by
              rw [hheld]
              exact textless_of_not_within hwithin
            refine iff_of_false (hgone (textless_apply htextless le_rfl hfirst)) fun h => hwithin ?_
            have hlasts : Lasts deadline ((w :: writes).filterMap (Stamped.renewal? key)) now := by
              rw [List.filterMap_cons]
              exact h.2.2
            apply hlasts.within
            · intro renewal hrenewal
              obtain ⟨w', hw', hmade⟩ := List.mem_filterMap.mp hrenewal
              rw [Stamped.renewal?_time hmade]
              rcases List.mem_cons.mp hw' with rfl | hlater
              · exact le_rfl
              · exact le_of_chain htimes _ (List.mem_append_left _ (List.mem_map_of_mem hlater))
            · exact le_of_chain htimes _ (List.mem_append_right _ (List.mem_singleton_self now))
      · have happly : r.apply w key = some ⟨.text v, deadline⟩ := (apply_of_ne hkey).trans hheld
        have hdel : w.write ≠ .del key := by
          intro heq
          rw [heq] at hkey
          exact hkey rfl
        rw [ih happly hrest htimes, Stamped.renewal?_of_ne hkey]
        exact ⟨fun h => ⟨h.1, ⟨hdel, h.2.1⟩, h.2.2⟩, fun h => ⟨h.1, h.2.1.2, h.2.2⟩⟩

/-- The same behind any writes, from the last `set` on. -/
theorem textAt_after_set (r : Leasespace α) (before : List (Stamped α)) (hw : w.write = .set key v)
    (hset : ∀ w ∈ after, ¬ w.Sets key)
    (htimes : List.IsChain (· ≤ ·) (w.time :: (after.map Stamped.time ++ [now]))) :
    (r.run (before ++ w :: after)).textAt now key = some value ↔
      value = v ∧ (∀ w ∈ after, w.write ≠ .del key) ∧ Lasts none (after.filterMap (Stamped.renewal? key)) now := by
  have hsplit : r.run (before ++ w :: after) = ((r.run before).apply w).run after := by
    rw [run, List.foldl_append]
    rfl
  have hkey : w.write.key = key := by
    rw [hw]
    rfl
  have hheld : (r.run before).apply w key = some ⟨.text v, none⟩ := by
    rw [← hkey, apply_self, Stamped.next, hw]
  rw [hsplit]
  exact textAt_run_iff hheld hset htimes

/-- A list has a last element with a property, or none. -/
theorem last_or_none {β : Type} (p : β → Prop) (l : List β) :
    (∀ b ∈ l, ¬ p b) ∨ ∃ before b after, l = before ++ b :: after ∧ p b ∧ ∀ b ∈ after, ¬ p b := by
  induction l with
  | nil => exact .inl fun _ h => (List.not_mem_nil h).elim
  | cons b l ih =>
      rcases ih with hnone | ⟨before, b', after, rfl, hp, hafter⟩
      · by_cases hp : p b
        · exact .inr ⟨[], b, l, rfl, hp, hnone⟩
        · exact .inl (List.forall_mem_cons.mpr ⟨hp, hnone⟩)
      · exact .inr ⟨b :: before, b', after, rfl, hp, hafter⟩

theorem chain_of_split {times rest : List Nat} {t : Nat} (h : List.IsChain (· ≤ ·) (times ++ t :: rest)) :
    List.IsChain (· ≤ ·) (t :: rest) :=
  h.right_of_append

/-- **What is found** under a key that was empty at first is what was set there last, unless that was
deleted or has lapsed. -/
theorem textAt_run_empty (hstart : r key = none) (htimes : List.IsChain (· ≤ ·) (writes.map Stamped.time ++ [now])) :
    (r.run writes).textAt now key = some v ↔ ∃ before w after, writes = before ++ w :: after ∧
      w.write = .set key v ∧ (∀ w ∈ after, ¬ w.Sets key ∧ w.write ≠ .del key) ∧
        Lasts none (after.filterMap (Stamped.renewal? key)) now := by
  constructor
  · intro hfound
    rcases last_or_none (Stamped.Sets key) writes with hnone | ⟨before, w, after, rfl, ⟨value, hw⟩, hset⟩
    · have htextless : Textless 0 (r key) := by
        rw [hstart]
        exact textless_none 0
      have hzero : List.IsChain (· ≤ ·) (0 :: (writes.map Stamped.time ++ [now])) :=
        htimes.cons fun t _ => Nat.zero_le t
      rw [textAt_run_of_textless htextless hnone hzero] at hfound
      cases hfound
    · rw [List.map_append, List.append_assoc] at htimes
      obtain ⟨rfl, hdel, hlasts⟩ := (textAt_after_set r before hw hset (chain_of_split htimes)).mp hfound
      exact ⟨before, w, after, rfl, hw, fun w' hw' => ⟨hset w' hw', hdel w' hw'⟩, hlasts⟩
  · rintro ⟨before, w, after, rfl, hw, hafter, hlasts⟩
    rw [List.map_append, List.append_assoc] at htimes
    exact (textAt_after_set r before hw (fun w' hw' => (hafter w' hw').1) (chain_of_split htimes)).mpr
      ⟨rfl, fun w' hw' => (hafter w' hw').2, hlasts⟩

end run

end Leasespace

end Theory

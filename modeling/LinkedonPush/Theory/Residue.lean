import Mathlib.Data.List.Induction
import LinkedonPush.Theory.Keyspace

/-!
# What a writer leaves in a shared store

A log tells the writes of one writer from those of all others. A writer that only makes items leaves
no trace exactly if each of its items stood before, wherever the others have not interfered.
-/

namespace Theory

variable {α : Type}

/-! ### Interference -/

section touched

/-- Another writer may have changed the text under the key. -/
def TextTouched (log : List (Bool × Write α)) (key : α) : Prop := ∃ w, (false, w) ∈ log ∧ w.DisturbsText key

/-- Another writer may have changed the score of the member, or whether it can be added. -/
def MemberTouched (log : List (Bool × Write α)) (key member : α) : Prop :=
  ∃ w, (false, w) ∈ log ∧ w.DisturbsMember key member

variable {log : List (Bool × Write α)} {key member : α}

theorem not_retypes_of_untouched {w : Write α} (h : ¬ MemberTouched log key member) (hmem : (false, w) ∈ log) :
    ¬ w.Retypes key := fun hretypes => h ⟨w, hmem, hretypes.disturbs member⟩

/-- A key whose text the others touched has all its members touched. -/
theorem TextTouched.memberTouched (h : TextTouched log key) (member : α) : MemberTouched log key member := by
  obtain ⟨w, hmem, hdisturbs⟩ := h
  refine ⟨w, hmem, ?_⟩
  cases w with
  | set | del => exact hdisturbs
  | _ => exact hdisturbs.elim

end touched

/-! ### Logs -/

variable [DecidableEq α]

namespace Keyspace

/-- The store after a log; a write is marked if it is the writer's own. -/
def after (r : Keyspace α) (log : List (Bool × Write α)) : Keyspace α :=
  log.foldl (fun r p => r.apply p.2) r

theorem after_append_singleton (r : Keyspace α) (log : List (Bool × Write α)) (p : Bool × Write α) :
    r.after (log ++ [p]) = (r.after log).apply p.2 := by
  rw [after, List.foldl_append]
  rfl

end Keyspace

section log

variable (log : List (Bool × Write α))

/-- Whatever the others have not touched reads as before. -/
structure Untraced (r r' : Keyspace α) : Prop where
  text : ∀ key, ¬ TextTouched log key → r'.textAt key = r.textAt key
  member : ∀ key member, ¬ MemberTouched log key member → r'.scoreAt key member = r.scoreAt key member

/-- The write makes an item that stood before, if the others left it alone. -/
def Redundant (r : Keyspace α) : Write α → Prop
  | .set key value => TextTouched log key ∨ r.textAt key = some value
  | .zadd key score member =>
      MemberTouched log key member ∨ r.scoreAt key member = some score ∨ r.takesMembers key = false
  | _ => True

/-- The writer only makes items, and never two different ones at one place. -/
structure Steady : Prop where
  makes : ∀ w, (true, w) ∈ log → (∃ key value, w = .set key value) ∨ (∃ key, w = .expire key) ∨
    ∃ key score member, w = .zadd key score member
  text : ∀ key value value', (true, .set key value) ∈ log → (true, .set key value') ∈ log → value = value'
  score : ∀ key member score score', (true, .zadd key score member) ∈ log →
    (true, .zadd key score' member) ∈ log → score = score'

end log

section untraced

variable {log : List (Bool × Write α)} {r r' : Keyspace α} {w : Write α} {key member value : α} {score : Int}

/-- What is kept while the writer is at work. -/
structure Unmoved (log : List (Bool × Write α)) (r r' : Keyspace α) : Prop extends Untraced log r r' where
  takes : ∀ key member, ¬ MemberTouched log key member → r'.takesMembers key = r.takesMembers key

theorem Unmoved.other (h : Unmoved log r r') (hmem : (false, w) ∈ log) : Unmoved log r (r'.apply w) := by
  refine ⟨⟨fun key huntouched => ?_, fun key member huntouched => ?_⟩, fun key member huntouched => ?_⟩
  · rw [Keyspace.textAt_apply fun hdisturbs => huntouched ⟨w, hmem, hdisturbs⟩]
    exact h.text key huntouched
  · rw [Keyspace.scoreAt_apply fun hdisturbs => huntouched ⟨w, hmem, hdisturbs⟩]
    exact h.member key member huntouched
  · rw [Keyspace.takesMembers_apply (not_retypes_of_untouched huntouched hmem)]
    exact h.takes key member huntouched

/-- A key that holds a text has no members. -/
theorem Keyspace.members_of_text (h : r.textAt key = some value) (member : α) :
    r.scoreAt key member = none ∧ r.takesMembers key = false := by
  unfold textAt at h
  unfold scoreAt takesMembers
  cases hheld : r key with
  | none =>
      rw [hheld] at h
      cases h
  | some held =>
      rw [hheld] at h
      cases held with
      | text value => exact ⟨rfl, rfl⟩
      | scores members => cases h
      | list items => cases h

theorem Unmoved.set (h : Unmoved log r r') (hredundant : Redundant log r (.set key value)) :
    Unmoved log r (r'.apply (.set key value)) := by
  have hnow := Keyspace.textAt_set r' key value
  -- a place under the key reads as the redundant text says
  have hmembers : ∀ member, ¬ MemberTouched log key member →
      (r'.apply (.set key value)).scoreAt key member = r.scoreAt key member ∧
        (r'.apply (.set key value)).takesMembers key = r.takesMembers key := by
    intro member huntouched
    have hbefore : r.textAt key = some value :=
      hredundant.resolve_left fun htouched => huntouched (htouched.memberTouched member)
    rw [(Keyspace.members_of_text hnow member).1, (Keyspace.members_of_text hbefore member).1,
      (Keyspace.members_of_text hnow member).2, (Keyspace.members_of_text hbefore member).2]
    exact ⟨rfl, rfl⟩
  refine ⟨⟨fun key' huntouched => ?_, fun key' member huntouched => ?_⟩, fun key' member huntouched => ?_⟩
  · by_cases hkey : (Write.set key value).DisturbsText key'
    · obtain rfl : key = key' := hkey
      rw [hnow, hredundant.resolve_left huntouched]
    · rw [Keyspace.textAt_apply hkey]
      exact h.text key' huntouched
  · by_cases hkey : (Write.set key value).DisturbsMember key' member
    · obtain rfl : key = key' := hkey
      exact (hmembers member huntouched).1
    · rw [Keyspace.scoreAt_apply hkey]
      exact h.member key' member huntouched
  · by_cases hkey : (Write.set key value).Retypes key'
    · obtain rfl : key = key' := hkey
      exact (hmembers member huntouched).2
    · rw [Keyspace.takesMembers_apply hkey]
      exact h.takes key' member huntouched

theorem Unmoved.zadd (h : Unmoved log r r') (hredundant : Redundant log r (.zadd key score member)) :
    Unmoved log r (r'.apply (.zadd key score member)) := by
  refine ⟨⟨fun key' huntouched => ?_, fun key' member' huntouched => ?_⟩, fun key' member' huntouched => ?_⟩
  · rw [Keyspace.textAt_apply id]
    exact h.text key' huntouched
  · by_cases hsame : (Write.zadd key score member).DisturbsMember key' member'
    · obtain ⟨rfl, rfl⟩ : key = key' ∧ member = member' := hsame
      rw [Keyspace.scoreAt_zadd, h.takes key member huntouched]
      rcases hredundant.resolve_left huntouched with hscore | hrefused
      · rw [Keyspace.takesMembers_of_scoreAt (by rw [hscore]; rfl), hscore]
        rfl
      · rw [hrefused]
        exact (Value.scoreOf_eq_none hrefused).symm
    · rw [Keyspace.scoreAt_apply hsame]
      exact h.member key' member' huntouched
  · rw [Keyspace.takesMembers_apply id]
    exact h.takes key' member' huntouched

/-- Redundant writes move nothing, however many others write in between. -/
theorem unmoved_after (hmakes : ∀ w, (true, w) ∈ log → (∃ key value, w = .set key value) ∨
      (∃ key, w = .expire key) ∨ ∃ key score member, w = .zadd key score member)
    (hredundant : ∀ w, (true, w) ∈ log → Redundant log r w) {part : List (Bool × Write α)}
    (hpart : ∀ p ∈ part, p ∈ log) : Unmoved log r (r.after part) := by
  induction part using List.reverseRecOn with
  | nil => exact ⟨⟨fun _ _ => rfl, fun _ _ _ => rfl⟩, fun _ _ _ => rfl⟩
  | append_singleton part p ih =>
      rw [Keyspace.after_append_singleton]
      have hbefore := ih fun p hmem => hpart p (List.mem_append_left _ hmem)
      have hmem : p ∈ log := hpart p (List.mem_append_right _ (List.mem_singleton_self p))
      obtain ⟨own, w⟩ := p
      cases own with
      | false => exact hbefore.other hmem
      | true =>
          have hnow := hredundant w hmem
          rcases hmakes w hmem with ⟨key, value, rfl⟩ | ⟨key, rfl⟩ | ⟨key, score, member, rfl⟩
          · exact hbefore.set hnow
          · rw [Keyspace.apply_expire]
            exact hbefore
          · exact hbefore.zadd hnow

/-- The last word on an untouched text is the writer's. -/
theorem Steady.textAt_after (h : Steady log) (huntouched : ¬ TextTouched log key)
    {part : List (Bool × Write α)} (hpart : ∀ p ∈ part, p ∈ log) (hset : (true, .set key value) ∈ part) :
    (r.after part).textAt key = some value := by
  induction part using List.reverseRecOn with
  | nil => exact (List.not_mem_nil hset).elim
  | append_singleton part p ih =>
      rw [Keyspace.after_append_singleton]
      have hmem : p ∈ log := hpart p (List.mem_append_right _ (List.mem_singleton_self p))
      have hvalue : (true, .set key value) ∈ log := hpart _ hset
      obtain ⟨own, w⟩ := p
      by_cases hdisturbs : w.DisturbsText key
      · cases own with
        | false => exact (huntouched ⟨w, hmem, hdisturbs⟩).elim
        | true =>
            rcases h.makes w hmem with ⟨key', value', rfl⟩ | ⟨key', rfl⟩ | ⟨key', score, member, rfl⟩
            · obtain rfl : key' = key := hdisturbs
              rw [Keyspace.textAt_set, h.text key' value value' hvalue hmem]
            · exact hdisturbs.elim
            · exact hdisturbs.elim
      · rw [Keyspace.textAt_apply hdisturbs]
        apply ih (fun p hmem => hpart p (List.mem_append_left _ hmem))
        rcases List.mem_append.mp hset with hset | hlast
        · exact hset
        · cases List.mem_singleton.mp hlast
          exact (hdisturbs rfl).elim

/-- A key stays open to members unless somebody puts another value there. -/
theorem takesMembers_after (hretypes : ∀ p ∈ log, ¬ p.2.Retypes key) :
    (r.after log).takesMembers key = r.takesMembers key := by
  induction log using List.reverseRecOn with
  | nil => rfl
  | append_singleton part p ih =>
      rw [Keyspace.after_append_singleton,
        Keyspace.takesMembers_apply (hretypes p (List.mem_append_right _ (List.mem_singleton_self p)))]
      exact ih fun p hmem => hretypes p (List.mem_append_left _ hmem)

/-- The last word on an untouched score is the writer's. -/
theorem Steady.scoreAt_after (h : Steady log) (huntouched : ¬ MemberTouched log key member)
    (htakes : r.takesMembers key = true) (hunset : ∀ value, (true, .set key value) ∉ log)
    {part : List (Bool × Write α)} (hpart : ∀ p ∈ part, p ∈ log) (hzadd : (true, .zadd key score member) ∈ part) :
    (r.after part).scoreAt key member = some score := by
  have hretypes : ∀ p ∈ log, ¬ p.2.Retypes key := by
    intro p hmem hretypes
    obtain ⟨own, w⟩ := p
    cases own with
    | false => exact not_retypes_of_untouched huntouched hmem hretypes
    | true =>
        rcases h.makes w hmem with ⟨key', value, rfl⟩ | ⟨key', rfl⟩ | ⟨key', score, member, rfl⟩
        · obtain rfl : key' = key := hretypes
          exact hunset value hmem
        · exact hretypes
        · exact hretypes
  induction part using List.reverseRecOn with
  | nil => exact (List.not_mem_nil hzadd).elim
  | append_singleton part p ih =>
      rw [Keyspace.after_append_singleton]
      have hmem : p ∈ log := hpart p (List.mem_append_right _ (List.mem_singleton_self p))
      have hscore : (true, .zadd key score member) ∈ log := hpart _ hzadd
      have hpart' : ∀ p ∈ part, p ∈ log := fun p hmem => hpart p (List.mem_append_left _ hmem)
      obtain ⟨own, w⟩ := p
      by_cases hdisturbs : w.DisturbsMember key member
      · cases own with
        | false => exact (huntouched ⟨w, hmem, hdisturbs⟩).elim
        | true =>
            rcases h.makes w hmem with ⟨key', value, rfl⟩ | ⟨key', rfl⟩ | ⟨key', score', member', rfl⟩
            · exact (hretypes _ hmem hdisturbs).elim
            · exact hdisturbs.elim
            · obtain ⟨rfl, rfl⟩ : key' = key ∧ member' = member := hdisturbs
              rw [Keyspace.scoreAt_zadd, takesMembers_after fun p hmem => hretypes p (hpart' p hmem), htakes,
                if_pos rfl, h.score key' member' score score' hscore hmem]
      · rw [Keyspace.scoreAt_apply hdisturbs]
        apply ih hpart'
        rcases List.mem_append.mp hzadd with hzadd | hlast
        · exact hzadd
        · cases List.mem_singleton.mp hlast
          exact (hdisturbs ⟨rfl, rfl⟩).elim

/-- **A writer leaves no trace** exactly if its writes are redundant. -/
theorem Steady.untraced_iff (h : Steady log) :
    Untraced log r (r.after log) ↔ ∀ w, (true, w) ∈ log → Redundant log r w := by
  constructor
  · intro huntraced w hmem
    rcases h.makes w hmem with ⟨key, value, rfl⟩ | ⟨key, rfl⟩ | ⟨key, score, member, rfl⟩
    · by_cases htouched : TextTouched log key
      · exact .inl htouched
      · right
        rw [← huntraced.text key htouched]
        exact h.textAt_after htouched (fun _ hmem => hmem) hmem
    · trivial
    · by_cases htouched : MemberTouched log key member
      · exact .inl htouched
      · right
        by_cases htakes : r.takesMembers key = true
        · have hunset : ∀ value, (true, .set key value) ∉ log := by
            intro value hset
            have huntext : ¬ TextTouched log key := fun htext => htouched (htext.memberTouched member)
            have htext : r.textAt key = some value := by
              rw [← huntraced.text key huntext]
              exact h.textAt_after huntext (fun _ hmem => hmem) hset
            rw [(Keyspace.members_of_text htext member).2] at htakes
            cases htakes
          left
          rw [← huntraced.member key member htouched]
          exact h.scoreAt_after htouched htakes hunset (fun _ hmem => hmem) hmem
        · exact .inr (Bool.eq_false_iff.mpr htakes)
  · intro hredundant
    exact (unmoved_after h.makes hredundant fun _ hmem => hmem).toUntraced

end untraced

end Theory

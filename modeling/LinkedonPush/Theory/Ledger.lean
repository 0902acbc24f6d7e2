import Mathlib.Data.List.Induction
import Mathlib.Data.List.Nodup
import LinkedonPush.Theory.Run

/-!
# A queue searched by address

Owners put entries into a queue, a consumer takes them from the front and frees them, and an owner
that goes away searches the queue for the address its entry once had. An address that was freed may
be given out again, so the search may find somebody else's entry.
-/

namespace Theory

/-- An entry of the queue. -/
structure Slot (ω π : Type) where
  owner : ω
  address : Nat
  payload : π

inductive Use (ω π : Type) where
  | push (slot : Slot ω π)
  | pop
  /-- The owner removes and frees the entry at the address, if there is one. -/
  | search (owner : ω) (address : Nat)

/-- What has become of the entries, by their owners. -/
structure Ledger (ω π : Type) where
  pushed : List ω
  queue : List (Slot ω π)
  processed : List ω
  /-- Who removed an entry by a search, and whose. -/
  erased : List (ω × ω)

namespace Ledger

variable {ω π : Type}

def empty : Ledger ω π := ⟨[], [], [], []⟩

def note (l : Ledger ω π) : Use ω π → Ledger ω π
  | .push slot => { l with pushed := l.pushed ++ [slot.owner], queue := l.queue ++ [slot] }
  | .pop =>
      match l.queue with
      | [] => l
      | slot :: rest => { l with queue := rest, processed := l.processed ++ [slot.owner] }
  | .search owner address =>
      match l.queue.find? fun slot => slot.address == address with
      | none => l
      | some slot =>
          { l with
            queue := l.queue.eraseP fun slot => slot.address == address
            erased := l.erased ++ [(owner, slot.owner)] }

/-- The ledger of a sequence of uses. -/
def of (uses : List (Use ω π)) : Ledger ω π := uses.foldl note empty

theorem of_append_singleton (uses : List (Use ω π)) (use : Use ω π) :
    of (uses ++ [use]) = (of uses).note use := by
  rw [of, List.foldl_append]
  rfl

/-- Whose entries a search removed. -/
def lost (l : Ledger ω π) : List ω := l.erased.map Prod.snd

/-- Every owner pushes once, at an address that no entry has. -/
def Admits (l : Ledger ω π) : Use ω π → Prop
  | .push slot => slot.owner ∉ l.pushed ∧ ∀ other ∈ l.queue, other.address ≠ slot.address
  | _ => True

/-- A search finds no entry but the searcher's own. -/
def Respects (l : Ledger ω π) : Use ω π → Prop
  | .search owner address => ∀ slot ∈ l.queue, slot.address = address → slot.owner = owner
  | _ => True

/-- No search removed an entry of another owner. -/
def Owned (l : Ledger ω π) : Prop := ∀ removal ∈ l.erased, removal.1 = removal.2

/-- What a search that finds something does to the queue. -/
theorem find_split {l : Ledger ω π} {address : Nat} {slot : Slot ω π}
    (hfind : l.queue.find? (fun slot => slot.address == address) = some slot) :
    ∃ before after, l.queue = before ++ slot :: after ∧ slot.address = address ∧
      l.queue.eraseP (fun slot => slot.address == address) = before ++ after := by
  obtain ⟨haddress, before, after, hqueue, hbefore⟩ := List.find?_eq_some_iff_append.mp hfind
  refine ⟨before, after, hqueue, beq_iff_eq.mp haddress, ?_⟩
  have hnone : ∀ other ∈ before, ¬ (other.address == address) = true := by
    intro other hother
    simpa using hbefore other hother
  rw [hqueue, List.eraseP_append_right _ hnone, List.eraseP_cons, haddress]
  rfl

variable [DecidableEq ω]

/-- Every entry that no search removed has been processed or waits, in the order of the pushes. -/
structure Balanced (l : Ledger ω π) : Prop where
  pushedOnce : l.pushed.Nodup
  addresses : (l.queue.map Slot.address).Nodup
  inOrder : l.pushed.filter (fun owner => owner ∉ l.lost) = l.processed ++ l.queue.map Slot.owner
  lostOnce : l.lost.Nodup
  lost_pushed : ∀ owner ∈ l.lost, owner ∈ l.pushed

section balanced

variable {l : Ledger ω π} {owner : ω} {address : Nat} {slot : Slot ω π}

theorem balanced_empty : (empty : Ledger ω π).Balanced :=
  ⟨List.nodup_nil, List.nodup_nil, rfl, List.nodup_nil, fun _ h => (List.not_mem_nil h).elim⟩

theorem Balanced.owners (h : l.Balanced) : (l.processed ++ l.queue.map Slot.owner).Nodup := by
  rw [← h.inOrder]
  exact h.pushedOnce.filter _

/-- An entry leaves the queue once. -/
theorem Balanced.leftOnce (h : l.Balanced) : (l.processed ++ l.lost).Nodup := by
  have howners := h.owners
  rw [List.nodup_append] at howners ⊢
  refine ⟨howners.1, h.lostOnce, fun owner hprocessed other hlost heq => ?_⟩
  subst heq
  have hmem : owner ∈ l.pushed.filter (fun owner => owner ∉ l.lost) := by
    rw [h.inOrder]
    exact List.mem_append_left _ hprocessed
  simp [hlost] at hmem

theorem Balanced.push (h : l.Balanced) (hadmits : l.Admits (.push slot)) : (l.note (.push slot)).Balanced where
  pushedOnce := List.nodup_append.mpr ⟨h.pushedOnce, List.nodup_singleton _, fun owner howner other hother heq =>
    hadmits.1 (by rwa [← List.mem_singleton.mp hother, ← heq])⟩
  addresses := by
    simp only [note, List.map_append, List.map_cons, List.map_nil]
    refine List.nodup_append.mpr ⟨h.addresses, List.nodup_singleton _, fun address haddress other hother heq => ?_⟩
    obtain ⟨slot', hslot', rfl⟩ := List.mem_map.mp haddress
    exact hadmits.2 slot' hslot' (heq.trans (List.mem_singleton.mp hother))
  inOrder := by
    have hnew : slot.owner ∉ l.lost := fun hlost => hadmits.1 (h.lost_pushed _ hlost)
    change (l.pushed ++ [slot.owner]).filter (fun owner => owner ∉ l.lost) =
      l.processed ++ (l.queue ++ [slot]).map Slot.owner
    rw [List.filter_append, h.inOrder, List.map_append, List.append_assoc]
    simp [hnew]
  lostOnce := h.lostOnce
  lost_pushed := fun owner hlost => List.mem_append_left _ (h.lost_pushed owner hlost)

theorem Balanced.pop (h : l.Balanced) : (l.note .pop).Balanced := by
  cases hqueue : l.queue with
  | nil =>
      simp only [note, hqueue]
      exact h
  | cons slot rest =>
      simp only [note, hqueue]
      refine ⟨h.pushedOnce, ?_, ?_, h.lostOnce, h.lost_pushed⟩
      · have haddresses := h.addresses
        rw [hqueue, List.map_cons, List.nodup_cons] at haddresses
        exact haddresses.2
      · apply h.inOrder.trans
        simp only [hqueue, List.map_cons, List.append_assoc, List.singleton_append]

theorem Balanced.search (h : l.Balanced) : (l.note (.search owner address)).Balanced := by
  cases hfind : l.queue.find? (fun slot => slot.address == address) with
  | none =>
      simp only [note, hfind]
      exact h
  | some slot =>
      obtain ⟨before, after, hqueue, -, herase⟩ := find_split hfind
      have hnote : l.note (.search owner address) =
          { l with queue := before ++ after, erased := l.erased ++ [(owner, slot.owner)] } := by
        simp only [note, hfind, herase]
      have hlost : (l.note (.search owner address)).lost = l.lost ++ [slot.owner] := by
        rw [hnote, lost, List.map_append]
        rfl
      have howners := h.owners
      rw [hqueue, List.map_append, List.map_cons] at howners
      -- the owner of the entry is one whose entry was still there
      have hmem : slot.owner ∈ l.pushed.filter (fun owner => owner ∉ l.lost) := by
        rw [h.inOrder, hqueue]
        simp
      obtain ⟨hpushed, hkept⟩ := List.mem_filter.mp hmem
      have hfresh : slot.owner ∉ l.lost := by simpa using hkept
      have haddresses : ((before ++ after).map Slot.address).Nodup := by
        refine h.addresses.sublist (List.Sublist.map _ ?_)
        rw [hqueue]
        exact List.Sublist.append_left (List.sublist_cons_self slot after) before
      have hlostOnce : (l.lost ++ [slot.owner]).Nodup := by
        refine List.nodup_append.mpr ⟨h.lostOnce, List.nodup_singleton _, fun owner howner other hother heq => ?_⟩
        rw [heq, List.mem_singleton.mp hother] at howner
        exact hfresh howner
      have hlost_pushed : ∀ owner ∈ l.lost ++ [slot.owner], owner ∈ l.pushed := by
        intro owner howner
        rcases List.mem_append.mp howner with hold | hnew
        · exact h.lost_pushed owner hold
        · rwa [List.mem_singleton.mp hnew]
      have hinOrder : l.pushed.filter (fun owner => owner ∉ l.lost ++ [slot.owner]) =
          l.processed ++ (before ++ after).map Slot.owner := by
        have hsplit : l.pushed.filter (fun owner => owner ∉ l.lost ++ [slot.owner]) =
            (l.pushed.filter (fun owner => owner ∉ l.lost)).filter (fun owner => owner ≠ slot.owner) := by
          rw [List.filter_filter]
          apply List.filter_congr
          intro owner _
          simp [and_comm]
        have hother : ∀ owners : List ω, slot.owner ∉ owners →
            owners.filter (fun owner => owner ≠ slot.owner) = owners := by
          intro owners hnot
          rw [List.filter_eq_self]
          intro owner howner
          rw [decide_eq_true_iff]
          intro heq
          rw [heq] at howner
          exact hnot howner
        have hnodup : slot.owner ∉ l.processed ∧ slot.owner ∉ before.map Slot.owner ∧
            slot.owner ∉ after.map Slot.owner := by
          rw [← List.append_assoc, List.nodup_middle, List.nodup_cons] at howners
          simpa [not_or, and_assoc] using howners.1
        rw [hsplit, h.inOrder, hqueue, List.map_append, List.map_append, List.map_cons, List.filter_append,
          List.filter_append, hother _ hnodup.1, hother _ hnodup.2.1, List.filter_cons_of_neg (by simp),
          hother _ hnodup.2.2]
      refine ⟨?_, ?_, ?_, ?_, ?_⟩
      · rw [hnote]
        exact h.pushedOnce
      · rw [hnote]
        exact haddresses
      · rw [hlost, hnote]
        exact hinOrder
      · rw [hlost]
        exact hlostOnce
      · rw [hlost, hnote]
        exact hlost_pushed

theorem Balanced.note {use : Use ω π} (h : l.Balanced) (hadmits : l.Admits use) : (l.note use).Balanced := by
  cases use with
  | push slot => exact h.push hadmits
  | pop => exact h.pop
  | search owner address => exact h.search

/-- A use keeps every removal one by the owner exactly if it respects the other owners. -/
theorem Balanced.owned_note {use : Use ω π} (h : l.Balanced) :
    (l.note use).Owned ↔ l.Owned ∧ l.Respects use := by
  cases use with
  | push slot => exact (and_iff_left trivial).symm
  | pop =>
      have hsame : (l.note .pop).erased = l.erased := by
        cases hqueue : l.queue <;> simp only [Ledger.note, hqueue]
      rw [Owned, hsame]
      exact (and_iff_left trivial).symm
  | search owner address =>
      cases hfind : l.queue.find? (fun slot => slot.address == address) with
      | none =>
          simp only [Ledger.note, hfind]
          refine (and_iff_left fun slot hslot haddress => ?_).symm
          exact (List.find?_eq_none.mp hfind slot hslot (beq_iff_eq.mpr haddress)).elim
      | some slot =>
          obtain ⟨before, after, hqueue, haddress, -⟩ := find_split hfind
          have hmem : slot ∈ l.queue := by
            rw [hqueue]
            exact List.mem_append_right _ List.mem_cons_self
          have howned : (l.note (.search owner address)).Owned ↔ l.Owned ∧ owner = slot.owner := by
            simp only [Owned, Ledger.note, hfind, List.mem_append, List.mem_singleton]
            constructor
            · intro hall
              exact ⟨fun removal hremoval => hall removal (.inl hremoval), hall (owner, slot.owner) (.inr rfl)⟩
            · intro hall removal hremoval
              rcases hremoval with hremoval | rfl
              · exact hall.1 removal hremoval
              · exact hall.2
          rw [howned]
          apply and_congr_right
          intro _
          constructor
          · intro hown other hother hsame
            rw [hown, List.inj_on_of_nodup_map h.addresses hother hmem (hsame.trans haddress.symm)]
          · intro hrespects
            exact (hrespects slot hmem haddress).symm

end balanced

section runs

variable {uses : List (Use ω π)}

theorem balanced_of (hadmits : Throughout (fun before use => (of before).Admits use) uses) :
    (of uses).Balanced := by
  induction uses using List.reverseRecOn with
  | nil => exact balanced_empty
  | append_singleton uses use ih =>
      obtain ⟨hbefore, huse⟩ := throughout_append_singleton.mp hadmits
      rw [of_append_singleton]
      exact (ih hbefore).note huse

/-- **Entries stay with their owners** exactly if no search comes upon a foreign entry. -/
theorem owned_of_iff (hadmits : Throughout (fun before use => (of before).Admits use) uses) :
    (of uses).Owned ↔ Throughout (fun before use => (of before).Respects use) uses := by
  induction uses using List.reverseRecOn with
  | nil => exact ⟨fun _ => throughout_nil, fun _ _ h => (List.not_mem_nil h).elim⟩
  | append_singleton uses use ih =>
      obtain ⟨hbefore, -⟩ := throughout_append_singleton.mp hadmits
      rw [of_append_singleton, (balanced_of hbefore).owned_note, throughout_append_singleton, ih hbefore]

end runs

end Ledger

end Theory

import LinkedonPush.Kernel.Json

/-!
# Objects that are written and read back

What a sequence of `json[key] = value` leaves under every key, and what a value looks like once
jsoncpp has printed and parsed it: the members are the same, but a positive integer that does not
fit an `int` comes back as unsigned.
-/

namespace LinkedonPush

namespace Json

variable {json root : Json} {key key' : Bytes} {value : Json} {members : List (Bytes × Json)}

/-! ### Writing -/

theorem lookup_cons_ite {α : Type} (key first : Bytes) (a : α) (rest : List (Bytes × α)) :
    ((first, a) :: rest).lookup key = if key = first then some a else rest.lookup key := by
  rw [List.lookup_cons]
  by_cases hkey : key = first
  · rw [if_pos hkey, beq_iff_eq.mpr hkey]
  · rw [if_neg hkey, beq_eq_false_iff_ne.mpr hkey]

theorem mem_of_lookup {α : Type} {key : Bytes} {a : α} {entries : List (Bytes × α)}
    (h : entries.lookup key = some a) : (key, a) ∈ entries := by
  obtain ⟨before, after, rfl, -⟩ := List.lookup_eq_some_iff.mp h
  exact List.mem_append_right _ List.mem_cons_self

theorem lookup_eq_none_of_notMem {α : Type} {key : Bytes} {entries : List (Bytes × α)}
    (h : key ∉ entries.map Prod.fst) : entries.lookup key = none := by
  rw [List.lookup_eq_none_iff]
  intro entry hentry
  rw [bne_iff_ne]
  rintro rfl
  exact h (List.mem_map.mpr ⟨entry, hentry, rfl⟩)

theorem lookup_of_mem {α : Type} {key : Bytes} {a : α} {entries : List (Bytes × α)}
    (hdistinct : (entries.map Prod.fst).Nodup) (h : (key, a) ∈ entries) :
    entries.lookup key = some a := by
  induction entries with
  | nil => exact (List.not_mem_nil h).elim
  | cons entry entries ih =>
      obtain ⟨first, b⟩ := entry
      rw [List.map_cons, List.nodup_cons] at hdistinct
      rw [lookup_cons_ite]
      rcases List.mem_cons.mp h with heq | hmem
      · obtain ⟨rfl, rfl⟩ := Prod.mk.inj heq
        exact if_pos rfl
      · have hne : key ≠ first := by
          rintro rfl
          exact hdistinct.1 (List.mem_map.mpr ⟨_, hmem, rfl⟩)
        rw [if_neg hne]
        exact ih hdistinct.2 hmem

/-- Dropping and converting entries under different keys. -/
theorem lookup_filterMap {α β : Type} (f : α → Option β) {entries : List (Bytes × α)}
    (hdistinct : (entries.map Prod.fst).Nodup) (key : Bytes) :
    (entries.filterMap fun entry => (f entry.2).map fun b => (entry.1, b)).lookup key =
      (entries.lookup key).bind f := by
  induction entries with
  | nil => rfl
  | cons entry entries ih =>
      obtain ⟨first, a⟩ := entry
      rw [List.map_cons, List.nodup_cons] at hdistinct
      obtain ⟨hfirst, hdistinct⟩ := hdistinct
      rw [List.filterMap_cons, lookup_cons_ite]
      cases hconverted : f a with
      | some b =>
          rw [Option.map_some, lookup_cons_ite, ih hdistinct]
          split
          · rw [Option.bind_some, hconverted]
          · rfl
      | none =>
          rw [Option.map_none, ih hdistinct]
          split
          · rename_i hkey
            rw [hkey, lookup_eq_none_of_notMem hfirst, Option.bind_some, hconverted, Option.bind_none]
          · rfl

theorem lookup_insertMember :
    (insertMember key value members).lookup key' =
      if key' = key then some value else members.lookup key' := by
  induction members with
  | nil => exact lookup_cons_ite key' key value []
  | cons member rest ih =>
      obtain ⟨first, shadowed⟩ := member
      unfold insertMember
      split
      · rename_i hfirst
        subst hfirst
        simp only [lookup_cons_ite]
        by_cases hkey : key' = key
        · rw [if_pos hkey, if_pos hkey]
        · rw [if_neg hkey, if_neg hkey, if_neg hkey]
      · rename_i hfirst
        split
        · exact lookup_cons_ite key' key value _
        · simp only [lookup_cons_ite, ih]
          by_cases hkey : key' = key
          · rw [hkey, if_neg hfirst, if_pos rfl, if_pos rfl]
          · rw [if_neg hkey, if_neg hkey]

theorem members_set (h : json.members = some members) :
    (json.set key value).members = some (insertMember key value members) := by
  cases json with
  | null =>
      cases h
      rfl
  | object _ =>
      cases h
      rfl
  | _ => cases h

/-- Members written one after the other; an entry without a value is left out. -/
def withMembers (entries : List (Bytes × Option Json)) (json : Json) : Json :=
  entries.foldl
    (fun json entry =>
      match entry.2 with
      | none => json
      | some value => json.set entry.1 value)
    json

/-- Entries under different keys do not get in each other's way. -/
theorem members_withMembers {entries : List (Bytes × Option Json)}
    (hdistinct : (entries.map Prod.fst).Nodup) (h : json.members = some members) :
    ∃ written, (json.withMembers entries).members = some written ∧
      ∀ key, written.lookup key = ((entries.lookup key).join).or (members.lookup key) := by
  induction entries generalizing json members with
  | nil => exact ⟨members, h, fun key => rfl⟩
  | cons entry entries ih =>
      obtain ⟨first, value⟩ := entry
      rw [List.map_cons, List.nodup_cons] at hdistinct
      obtain ⟨hfirst, hdistinct⟩ := hdistinct
      have hlookup := lookup_eq_none_of_notMem hfirst
      cases value with
      | none =>
          obtain ⟨written, hwritten, hread⟩ := ih hdistinct h
          refine ⟨written, hwritten, fun key => ?_⟩
          rw [hread key, lookup_cons_ite]
          by_cases hkey : key = first
          · rw [hkey, hlookup, if_pos rfl]
            rfl
          · rw [if_neg hkey]
      | some value =>
          obtain ⟨written, hwritten, hread⟩ := ih hdistinct (members_set h)
          refine ⟨written, hwritten, fun key => ?_⟩
          rw [hread key, lookup_cons_ite, lookup_insertMember]
          by_cases hkey : key = first
          · rw [hkey, hlookup, if_pos rfl, if_pos rfl]
            rfl
          · rw [if_neg hkey, if_neg hkey]

/-! ### Reading back -/

/-- A scalar as the parser may give it back. -/
inductive Same : Json → Json → Prop where
  | refl (json : Json) : Same json json
  | unsigned (n : Nat) : Same (.uint n) (.int n)

theorem Same.asString {parsed : Json} (h : Same parsed value) : parsed.asString = value.asString := by
  cases h <;> rfl

theorem Same.asInt64 {parsed : Json} {n : Int} (h : Same parsed (.int n)) (hn : n ≤ maxInt64) :
    parsed.asInt64 = some n := by
  cases h with
  | refl => rfl
  | unsigned n => exact if_pos hn

/-- `root` is what the parser makes of the printed `json`: the same members, in whatever order. -/
def ReadBack (root json : Json) : Prop :=
  ∃ members written, root.members = some members ∧ json.members = some written ∧
    (members.map Prod.fst).Nodup ∧ ∀ key, Option.Rel Same (members.lookup key) (written.lookup key)

/-- The parser may give back the very value. -/
theorem readBack_self (h : json.members = some members)
    (hdistinct : (members.map Prod.fst).Nodup) : ReadBack json json := by
  refine ⟨members, members, h, h, hdistinct, fun key => ?_⟩
  cases members.lookup key with
  | none => exact .none
  | some value => exact .some (.refl value)

/-- An absent member reads as null on both sides. -/
theorem ReadBack.get (h : ReadBack root json) (key : Bytes) :
    ∃ parsed value, root.get key = some parsed ∧ json.get key = some value ∧ Same parsed value := by
  obtain ⟨members, written, hroot, hjson, -, hrel⟩ := h
  rw [Json.get, Json.get, hroot, hjson]
  refine ⟨(members.lookup key).getD null, (written.lookup key).getD null, rfl, rfl, ?_⟩
  have hkey := hrel key
  generalize members.lookup key = parsed at hkey ⊢
  generalize written.lookup key = value at hkey ⊢
  cases hkey with
  | none => exact .refl null
  | some hsame => exact hsame

end Json

/-- jsoncpp reads back what it has printed for a value. -/
def Platform.ReadsBack (platform : Platform) (json : Json) : Prop :=
  ∃ root, platform.reader (platform.writer json) = some root ∧ Json.ReadBack root json

end LinkedonPush

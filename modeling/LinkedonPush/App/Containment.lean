import LinkedonPush.App.Acceptance
import LinkedonPush.App.Dispatch

/-!
# Where malformed JSON is contained

A text that does not parse is answered by a code or an empty message. A text that parses to a value
of another shape makes jsoncpp raise, and nothing between `decodeJson` or the message constructor
and the thread's entry catches what it raises.
-/

namespace LinkedonPush

open Theory LPushFMT LPushProtocol

/-- A handshake frame with a JSON body, which `handshake` hands to the decoder. -/
structure CarriesJson (message : LPushChunk) : Prop where
  dataType : message.header.dataType &&& 0x0F = 1
  tag : message.data.getD 0 0 &&& 0x0F = 6

/-- The inner length is what the header's length leaves for it. -/
structure InnerMatches (message : LPushChunk) : Prop where
  prefixed : 5 ≤ message.header.datalenght.toInt
  inner : (intAt message.data 1).toInt = message.header.datalenght.toInt - 5

section

variable {platform : Platform} {beyond : Nat → UInt8} {message : LPushChunk}

theorem InnerMatches.holdsText (h : InnerMatches message) : HoldsText message.data 0 := by
  have hprefixed := h.prefixed
  have hinner := h.inner
  have hsize := sizeT_of_nonneg (n := intAt message.data 1) (by omega)
  have hlength := message.length_data
  rw [LPushHeader.length] at hlength
  change 0 + 5 + sizeT (intAt message.data 1) ≤ message.data.length
  omega

/-- `handshake` returns exactly if its text can be stored member by member, or does not parse. -/
theorem handshake_returns_iff (hmalloc : ∀ n < 2 ^ 31, platform.malloc n = true) (h : InnerMatches message) :
    (∃ ret msk, (handshake platform beyond message).result = some (ret, msk)) ↔
      (CarriesJson message → ∀ root, platform.reader (textAt message.data 0) = some root → root.Flat) := by
  have htext := h.holdsText
  have hfirst : bodyMemory message.data beyond 0 = message.data.getD 0 0 := by
    apply bodyMemory_eq_getD
    rw [HoldsText] at htext
    omega
  by_cases hjson : CarriesJson message
  · have hsize : sizeT (intAt message.data 1) < 2 ^ 31 := by
      have hlength := length_data_lt message
      exact ((Nat.le_add_left _ _).trans htext).trans_lt hlength
    rw [result_handshake hjson.dataType (by rw [hfirst]; exact hjson.tag),
      result_decodeJson_text hjson.tag htext (hmalloc _ hsize)]
    simp only [hjson, forall_const]
    cases platform.reader (textAt message.data 0) with
    | none => exact iff_of_true ⟨_, _, rfl⟩ fun _ h => (Option.some_ne_none _ h.symm).elim
    | some root =>
        simp only [Option.some.injEq, forall_eq', flat_iff_stringMembers]
        cases stringMembers root with
        | none => simp
        | some parms => exact iff_of_true ⟨_, _, rfl⟩ ⟨parms, rfl⟩
  · have hreturns : (handshake platform beyond message).result = some (errorSystemHandshake, .empty) := by
      apply result_handshake_of_ne
      by_contra hboth
      rw [not_or, not_not, not_not, hfirst] at hboth
      exact hjson ⟨hboth.1, hboth.2⟩
    simp only [hjson, false_implies, iff_true]
    exact ⟨_, _, hreturns⟩

end

namespace Server

/-- A pass of `cycle_all` that does what it is for: it reads its batch to the end, trims what it
read whatever producers append meanwhile, and queues every message of the batch whose client is
registered. -/
def PassContained (platform : Platform) (s : Server) : Prop :=
  ∃ s' shown, cycleAll platform s = some (s', shown) ∧
    s'.processor = .cycling (batch s.tasks).length ∧
    (∀ more, ({ s' with tasks := s'.tasks ++ more }.ltrim (batch s.tasks).length).1.tasks =
      s.tasks.drop (batch s.tasks).length ++ more) ∧
    ∀ element ∈ batch s.tasks, ∀ lwm id, LPushWorkerMessage.ofJson platform (cStr element) = some lwm →
      s.sourceInstance lwm.userId lwm.appKey lwm.appSecret = some id →
        ∃ c client, s'.conns id = some c ∧ c.client = some client ∧ lwm ∈ client.queue

section

variable {platform : Platform} {s : Server}

/-- A pass that comes to its end has constructed a message from every element. -/
theorem readable_of_dispatchAll {next : Server × Nat × List Observation} {index : Nat} {works : List Bytes}
    (h : dispatchAll platform s index works = some next) :
    ∀ element ∈ works, ∀ root, platform.reader (cStr element) = some root → root.Readable := by
  induction works generalizing s index next with
  | nil => exact fun _ hmem => (List.not_mem_nil hmem).elim
  | cons element works ih =>
      rw [dispatchAll] at h
      split at h
      · cases h
      · rename_i lwm hlwm
        have helement := LPushWorkerMessage.ofJson_iff_readable.mp ⟨lwm, hlwm⟩
        rw [List.forall_mem_cons]
        refine ⟨helement, ?_⟩
        split at h
        · split at h
          · cases h
          · rename_i hrest
            exact ih hrest
        · split at h
          · cases h
          · split at h
            · cases h
            · rename_i hrest
              exact ih hrest

theorem passContained_iff (h : Indexes s.clients Entry.key s.entries) :
    PassContained platform s ↔
      ∀ element ∈ batch s.tasks, ∀ root, platform.reader (cStr element) = some root → root.Readable := by
  constructor
  · rintro ⟨s', shown, hcycle, -⟩
    obtain ⟨next, hdispatch, -⟩ := Option.map_eq_some_iff.mp hcycle
    exact readable_of_dispatchAll hdispatch
  · intro hreadable
    obtain ⟨⟨s', index, shown⟩, hdispatch⟩ := dispatchAll_of_readable h hreadable
    obtain ⟨hstate, hindex, -⟩ := dispatchAll_spec h hdispatch
    rw [Nat.zero_add] at hindex
    have htasks : s'.tasks = s.tasks := by
      rw [hstate]
      rfl
    refine ⟨{ s' with processor := .cycling index }, shown, ?_, ?_, fun more => ?_, ?_⟩
    · rw [cycleAll, hdispatch]
      rfl
    · exact congrArg Processor.cycling hindex
    · have hle : (batch s.tasks).length ≤ s.tasks.length := by
        rw [batch, List.length_take]
        exact Nat.min_le_right _ _
      dsimp only [ltrim]
      rw [htasks, List.drop_append_of_le_length hle]
    · intro element helement lwm id hlwm hinstance
      obtain ⟨a, ha, hkey⟩ := (h _ id).mp hinstance
      obtain ⟨c, client, hc, hclient, -, hclientKey⟩ := entries_eq_some.mp ha
      refine ⟨c.extend fun key => (batch s.tasks).filterMap (messageFor platform key),
        { client with queue := client.queue ++ (batch s.tasks).filterMap (messageFor platform client.key) },
        ?_, ?_, ?_⟩
      · dsimp only
        rw [hstate, conns_extend, hc, Option.map_some]
      · rw [LPushConn.extend, hclient, Option.map_some]
      · apply List.mem_append_right
        rw [List.mem_filterMap]
        refine ⟨element, helement, ?_⟩
        rw [messageFor, hlwm]
        dsimp only
        rw [if_pos (hkey.symm.trans hclientKey.symm)]

end

/-- **Containment.** A handshake returns exactly if its text does not parse or is flat, and a pass
over a batch does what it is for exactly if each element does not parse or is readable. -/
theorem malformed_json_contained_iff (setup : Setup) (hmalloc : ∀ n < 2 ^ 31, setup.platform.malloc n = true) :
    (∀ (beyond : Nat → UInt8) (message : LPushChunk), InnerMatches message →
      ((∃ ret msk, (handshake setup.platform beyond message).result = some (ret, msk)) ↔
        (CarriesJson message →
          ∀ root, setup.platform.reader (textAt message.data 0) = some root → root.Flat))) ∧
    ∀ tasks trace s, Reached setup tasks trace s →
      (PassContained setup.platform s ↔
        ∀ element ∈ batch s.tasks, ∀ root, setup.platform.reader (cStr element) = some root → root.Readable) :=
  ⟨fun _ _ h => handshake_returns_iff hmalloc h, fun _ _ _ hrun => passContained_iff hrun.registered.clients⟩

/-- A system in which the text "[]" parses to an array. -/
def arraySetup : Setup := ⟨bareConfig, textPlatform (text "[]") .array, fun _ _ => none⟩

/-- A handshake frame that carries it. -/
def arrayChunk : LPushChunk := ⟨⟨0, 1, 7⟩, 6 :: 0 :: 0 :: 0 :: 2 :: text "[]", rfl⟩

/-- Two tasks for user 7 wait behind an element that does not parse. -/
def waitsBehind : List Move :=
  enters 0 7 1 (opening userSeven) ++ activates 0 1 2 ++
    [.rpush (text "?"), .rpush taskJson, .rpush laterJson]

/-- What does not parse at all. -/
def strangeChunk : LPushChunk := handshakeChunk (text "?") (by decide)

theorem readable_waiting : ∀ element ∈ [text "?", taskJson, laterJson], ∀ root,
    laterPlatform.reader (cStr element) = some root → root.Readable := by
  intro element helement
  simp only [List.mem_cons, List.not_mem_nil, or_false] at helement
  refine LPushWorkerMessage.ofJson_iff_readable.mp (Option.isSome_iff_exists.mp ?_)
  rcases helement with rfl | rfl | rfl <;> decide +kernel

/-- The handshake of user 7 and one that does not parse both return, and the pass queues both tasks. -/
theorem malformed_json_contained_iff_waitsBehind : ∃ trace s, Reached laterSetup [] trace s ∧
    s.tasks = [text "?", taskJson, laterJson] ∧ s.sourceInstance (text "7") (text "app") (text "key") = some 0 ∧
    (∃ ret msk, (handshake laterPlatform (fun _ => 0) (handshakeChunk userJson (by decide))).result =
      some (ret, msk)) ∧
    (∃ ret msk, (handshake laterPlatform (fun _ => 0) strangeChunk).result = some (ret, msk)) ∧
    PassContained laterPlatform s := by
  have hmalloc : ∀ n < 2 ^ 31, laterPlatform.malloc n = true := by
    intro n hn
    have hsmall : n < 2 ^ 47 := by omega
    exact decide_eq_true hsmall
  obtain ⟨hhandshake, hpass⟩ := malformed_json_contained_iff laterSetup hmalloc
  obtain ⟨trace, s, hrun, hwanted⟩ := reached_of_play laterSetup [] waitsBehind
    (fun next => next.1.tasks = [text "?", taskJson, laterJson] ∧
      next.1.sourceInstance (text "7") (text "app") (text "key") = some 0) (by decide +kernel)
  obtain ⟨htasks, hfound⟩ := of_decide_eq_true hwanted
  have huser : textAt (handshakeChunk userJson (by decide)).data 0 = userJson := by decide +kernel
  have hstrange : textAt strangeChunk.data 0 = text "?" := by decide +kernel
  refine ⟨trace, s, hrun, htasks, hfound, (hhandshake _ _ ⟨by decide +kernel, by decide +kernel⟩).mpr ?_,
    (hhandshake _ _ ⟨by decide +kernel, by decide +kernel⟩).mpr ?_, (hpass [] trace s hrun).mpr ?_⟩
  · intro _ root hroot
    rw [huser] at hroot
    obtain rfl := Option.some.inj hroot
    exact ⟨_, rfl, by decide⟩
  · intro _ root hroot
    rw [hstrange] at hroot
    cases hroot
  · have hbatch : batch s.tasks = [text "?", taskJson, laterJson] := by
      rw [htasks]
      rfl
    rw [hbatch]
    exact readable_waiting

/-- An array raises in the handshake, and in a pass that then drops the element behind it. -/
theorem not_malformed_json_contained :
    (handshake arraySetup.platform (fun _ => 0) arrayChunk).result = none ∧
      ¬ PassContained arraySetup.platform (initial [text "[]", text "?"]) := by
  refine ⟨rfl, ?_⟩
  rintro ⟨s', shown, hcycle, -⟩
  cases hcycle

end Server

end LinkedonPush

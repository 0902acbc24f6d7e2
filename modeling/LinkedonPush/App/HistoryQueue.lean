import LinkedonPush.App.Schedule
import LinkedonPush.App.Stages
import LinkedonPush.Theory.Ledger

/-!
# The queue of the history loader

`push`, `pop` and `findPop` of `lpushMongoIOThread.cpp` over a whole run. The loader frees the entry
it takes while the connection that queued it keeps the address, and `findPop` knows entries by
address alone.
-/

namespace LinkedonPush

open Theory

namespace Server

/-- What an observation means to the queue. -/
def Observation.use? : Observation → Option (Use Nat MongoIOEntity)
  | .conn id (.pushHistory address mie) => some (.push ⟨id, address, mie⟩)
  | .conn id (.findPop address) => some (.search id address)
  | .request _ => some .pop
  | _ => none

/-- The uses of the queue in a run. -/
def uses (trace : List Observation) : List (Use Nat MongoIOEntity) := trace.filterMap Observation.use?

/-- The entries by the connections that queued them. -/
def ledger (trace : List Observation) : Ledger Nat MongoIOEntity := .of (uses trace)

/-- The entry as the queue holds it. -/
def queued (slot : Slot Nat MongoIOEntity) : Nat × MongoIOEntity := (slot.address, slot.payload)

section ledger

variable {id : Nat} {s : Server} {l : Ledger Nat MongoIOEntity}

theorem uses_append (trace shown : List Observation) : uses (trace ++ shown) = uses trace ++ uses shown :=
  List.filterMap_append

theorem ledger_append (trace shown : List Observation) :
    ledger (trace ++ shown) = (uses shown).foldl Ledger.note (ledger trace) := by
  rw [ledger, ledger, Ledger.of, uses_append, List.foldl_append]
  rfl

/-- What an effect shows besides itself is no use of the queue. -/
theorem uses_perform (id : Nat) (s : Server) (e : Effect) : uses (perform id s e).2 = [] := by
  cases e with
  | deleteClient cstfd =>
      simp only [perform]
      cases s.sources cstfd <;> rfl
  | _ => rfl

theorem uses_cons_perform (id : Nat) (s : Server) (e : Effect) :
    uses (.conn id e :: (perform id s e).2) = (Observation.use? (.conn id e)).toList := by
  rw [← List.singleton_append, uses_append, uses_perform, List.append_nil, uses, List.filterMap_cons]
  cases Observation.use? (.conn id e) <;> rfl

/-- The uses of a thread step are those of its effects on the queue. -/
theorem uses_performAll (id : Nat) (s : Server) (effects : List Effect) :
    uses (performAll id s effects).2 =
      (LPushConn.requests effects).filterMap fun e => Observation.use? (.conn id e) := by
  induction effects generalizing s with
  | nil => rfl
  | cons e effects ih =>
      have hrequests : LPushConn.requests (e :: effects) =
          (if LPushConn.queueing e then [e] else []) ++ LPushConn.requests effects := by
        rw [LPushConn.requests, List.filter_cons]
        split <;> rfl
      have hshown : (performAll id s (e :: effects)).2 =
          [.conn id e] ++ ((perform id s e).2 ++ (performAll id (perform id s e).1 effects).2) := rfl
      rw [hshown, uses_append, uses_append, uses_perform, List.nil_append, ih, hrequests, List.filterMap_append]
      congr 1
      cases e <;> rfl

/-- A use of the ledger is the use of the queue. -/
theorem queue_perform (h : l.queue.map queued = s.history) (e : Effect) :
    ((Observation.use? (.conn id e)).elim l l.note).queue.map queued = (perform id s e).1.history := by
  cases e with
  | pushHistory address mie =>
      change (l.queue ++ [(⟨id, address, mie⟩ : Slot Nat MongoIOEntity)]).map queued = s.history ++ [(address, mie)]
      rw [List.map_append, h]
      rfl
  | findPop address =>
      change (l.note (.search id address)).queue.map queued = s.history.eraseP fun entry => entry.1 == address
      rw [← h, List.eraseP_map]
      cases hfind : l.queue.find? (fun slot => slot.address == address) with
      | none =>
          have hnone : ∀ slot ∈ l.queue, ¬ (slot.address == address) = true := List.find?_eq_none.mp hfind
          simp only [Ledger.note, hfind]
          exact congrArg _ (List.eraseP_of_forall_not hnone).symm
      | some slot =>
          simp only [Ledger.note, hfind]
          rfl
  | deleteClient cstfd =>
      simp only [perform]
      cases s.sources cstfd <;> exact h
  | _ => exact h

theorem queue_performAll {trace : List Observation} (id : Nat)
    (h : (ledger trace).queue.map queued = s.history) (effects : List Effect) :
    (ledger (trace ++ (performAll id s effects).2)).queue.map queued = (performAll id s effects).1.history := by
  induction effects generalizing s trace with
  | nil => rwa [performAll, List.append_nil]
  | cons e effects ih =>
      have hshown : trace ++ (performAll id s (e :: effects)).2 =
          (trace ++ .conn id e :: (perform id s e).2) ++ (performAll id (perform id s e).1 effects).2 := by
        rw [List.append_assoc]
        rfl
      have hledger : ledger (trace ++ .conn id e :: (perform id s e).2) =
          (Observation.use? (.conn id e)).elim (ledger trace) (ledger trace).note := by
        rw [ledger_append, uses_cons_perform]
        cases Observation.use? (.conn id e) <;> rfl
      rw [hshown]
      apply ih
      rw [hledger]
      exact queue_perform h e

end ledger

/-! ### The queue over a run -/

/-- The ledger is the queue, and the uses are those the allocator and the code allow. -/
structure Booked (trace : List Observation) (s : Server) : Prop where
  queue : (ledger trace).queue.map queued = s.history
  admits : Throughout (fun before use => (Ledger.of before).Admits use) (uses trace)

section booked

variable {setup : Setup} {tasks : List Bytes} {trace shown : List Observation} {s s' : Server}

/-- A step that does not use the queue. -/
theorem Booked.aside (h : Booked trace s) (huses : uses shown = []) (hhistory : s'.history = s.history) :
    Booked (trace ++ shown) s' := by
  refine ⟨?_, ?_⟩
  · rw [ledger_append, huses, hhistory]
    exact h.queue
  · rw [uses_append, huses, List.append_nil]
    exact h.admits

/-- A step with one use. -/
theorem Booked.use (h : Booked trace s) {use : Use Nat MongoIOEntity} (huses : uses shown = [use])
    (hqueue : (ledger (trace ++ shown)).queue.map queued = s'.history)
    (hadmits : (ledger trace).Admits use) : Booked (trace ++ shown) s' := by
  refine ⟨hqueue, ?_⟩
  rw [uses_append, huses, throughout_append_singleton]
  exact ⟨h.admits, hadmits⟩

/-- The owners that have pushed are the connections that queued a request. -/
theorem mem_pushed {id : Nat} {uses : List (Use Nat MongoIOEntity)} (h : id ∈ (Ledger.of uses).pushed) :
    ∃ slot : Slot Nat MongoIOEntity, slot.owner = id ∧ .push slot ∈ uses := by
  induction uses using List.reverseRecOn with
  | nil => exact (List.not_mem_nil h).elim
  | append_singleton uses use ih =>
      have hbefore : id ∈ (Ledger.of uses).pushed →
          ∃ slot : Slot Nat MongoIOEntity, slot.owner = id ∧ .push slot ∈ uses ++ [use] := by
        intro hmem
        obtain ⟨slot, howner, hslot⟩ := ih hmem
        exact ⟨slot, howner, List.mem_append_left _ hslot⟩
      rw [Ledger.of_append_singleton] at h
      cases use with
      | push slot =>
          rcases List.mem_append.mp h with hmem | hmem
          · exact hbefore hmem
          · exact ⟨slot, (List.mem_singleton.mp hmem).symm, by simp⟩
      | pop =>
          apply hbefore
          rw [Ledger.note] at h
          split at h <;> exact h
      | search owner address =>
          apply hbefore
          rw [Ledger.note] at h
          split at h <;> exact h

theorem push_mem_uses {slot : Slot Nat MongoIOEntity} (h : .push slot ∈ uses trace) :
    .pushHistory slot.address slot.payload ∈ LPushConn.requests (view slot.owner trace) := by
  obtain ⟨o, ho, huse⟩ := List.mem_filterMap.mp h
  cases o with
  | conn id e =>
      cases e with
      | pushHistory address mie =>
          cases huse
          exact List.mem_filter.mpr ⟨mem_view.mpr ho, rfl⟩
      | findPop address => cases huse
      | _ => cases huse
  | _ => cases huse

theorem uses_delivering {address : LPushWorkerMessage → Bytes × Bytes × Bytes}
    (hrun : Run (· = s) (Delivering address) shown s') : uses shown = [] := by
  apply hrun.invariant (fun shown _ => uses shown = []) (fun _ _ => rfl)
  intro shown s more s' h hstep
  rw [uses_append, h]
  cases hstep <;> rfl

/-- A thread uses the queue when its connection is complete and when it goes away. -/
theorem Booked.thread (h : Booked trace s) (hrun : Reached setup tasks trace s) {id : Nat} {c c' : LPushConn}
    {w : World} {thread : LPushConn.ThreadName} {effects : List Effect} (hc : s.conns id = some c)
    (haddress : ∀ entry ∈ s.history, entry.1 ≠ w.address)
    (hstep : c.step (s.env setup) w thread = some (c', effects)) :
    Booked (trace ++ (performAll id
        { s with conns := Function.update s.conns id (some c'), crashed := c'.crashed } effects).2)
      (performAll id
        { s with conns := Function.update s.conns id (some c'), crashed := c'.crashed } effects).1 := by
  have hqueue := queue_performAll id
    (s := { s with conns := Function.update s.conns id (some c'), crashed := c'.crashed }) h.queue effects
  have huses := uses_performAll id
    { s with conns := Function.update s.conns id (some c'), crashed := c'.crashed } effects
  generalize performAll id { s with conns := Function.update s.conns id (some c'), crashed := c'.crashed }
    effects = next at hqueue huses ⊢
  have hquiet : LPushConn.requests effects = [] → Booked (trace ++ next.2) next.1 := by
    intro hnone
    rw [hnone] at huses
    refine ⟨hqueue, ?_⟩
    rw [uses_append, huses]
    exact (List.append_nil (uses trace)).symm ▸ h.admits
  obtain ⟨hstage, hrequested, -, -⟩ := hrun.filed hc
  cases hrun.turn hc hstep with
  | stays _ houtward => exact hquiet (LPushConn.requests_of_outward houtward)
  | refused msg _ _ _ houtward => exact hquiet (LPushConn.requests_of_commands houtward)
  | enrolled msg _ _ _ houtward => exact hquiet (LPushConn.requests_of_commands houtward)
  | connects msg hphase _ houtward =>
      rw [LPushConn.requests_eq_outward, houtward] at huses
      refine h.use huses hqueue ⟨fun hmem => ?_, fun slot hslot => ?_⟩
      · obtain ⟨slot, howner, hslot⟩ := mem_pushed hmem
        have hpushed := push_mem_uses hslot
        change slot.owner = id at howner
        rw [howner] at hpushed
        have hnone : c.mie = none := (hstage.early (.inr (.inr hphase))).2
        cases hrequested with
        | unasked _ htrace =>
            rw [htrace] at hpushed
            exact List.not_mem_nil hpushed
        | queued _ _ hmie => cases hnone.symm.trans hmie
        | dropped _ _ hmie => cases hnone.symm.trans hmie
      · have hentry : queued slot ∈ s.history := by
          rw [← h.queue]
          exact List.mem_map_of_mem hslot
        exact haddress _ hentry
  | finishes _ hfinishes =>
      rw [LPushConn.requests_eq_outward, hfinishes.outward_eq] at huses
      cases hmie : c.mie with
      | none =>
          rw [hmie] at huses
          apply hquiet
          rw [LPushConn.requests_eq_outward, hfinishes.outward_eq, hmie]
          rfl
      | some address =>
          rw [hmie] at huses
          exact h.use huses hqueue trivial
  | ends _ houtward => exact hquiet (LPushConn.requests_of_outward houtward)
  | asks _ hasking =>
      obtain ⟨commands, houtward, -⟩ := hasking.commands
      exact hquiet (LPushConn.requests_of_commands houtward)

/-- The loader takes the first entry. -/
theorem Booked.request (h : Booked trace s) {address : Nat} {mie : MongoIOEntity}
    {rest : List (Nat × MongoIOEntity)} (hhistory : s.history = (address, mie) :: rest) :
    Booked (trace ++ [.request mie]) { s with history := rest, processor := .loading mie } := by
  have huses : uses [.request mie] = [.pop] := rfl
  refine h.use huses ?_ trivial
  rw [ledger_append, huses]
  have hqueue := h.queue
  rw [hhistory] at hqueue
  obtain ⟨slot, slots, hslots, -, hrest⟩ := List.map_eq_cons_iff.mp hqueue
  simp only [List.foldl_cons, List.foldl_nil, Ledger.note, hslots]
  exact hrest

theorem Reached.booked (hrun : Reached setup tasks trace s) : Booked trace s := by
  induction hrun with
  | start hinit =>
      rw [hinit]
      exact ⟨rfl, throughout_nil⟩
  | next hbefore hstep ih =>
      cases hstep with
      | thread id thread w hrunning hfree haddress hthread =>
          obtain ⟨c, c', effects, hc, hstep, rfl⟩ := threadStep_spec hthread
          exact ih.thread hbefore hc haddress hstep
      | accept stfd beyond fcntl created hrunning hfree hfd =>
          rcases acceptClient_spec setup.conf stfd beyond fcntl created _ with hsame | ⟨c, -, haccepted⟩
          · rw [hsame]
            exact ih.aside rfl rfl
          · rw [haccepted]
            exact ih.aside rfl rfl
      | rpush element hrunning => exact ih.aside rfl rfl
      | lrange hrunning hfree hcycle =>
          obtain ⟨⟨s', index, shown⟩, hdispatch, rfl⟩ := Option.map_eq_some_iff.mp hcycle
          have hrun := dispatchAll_run hdispatch
          apply ih.aside (uses_delivering hrun)
          rw [delivering_frame hrun]
      | ltrim index hrunning hcycling => exact ih.aside rfl rfl
      | request address mie rest hrunning hfree hhistory => exact ih.request hhistory
      | page mie result hrunning hloading hpage =>
          have hrun := selectMongoHistoryLimit_run hpage
          apply ih.aside (uses_delivering hrun)
          rw [delivering_frame hrun]
      | loaded mie hrunning hloading => exact ih.aside rfl rfl

/-! ### Whose requests are removed -/

/-- What becomes of the requests of a run. -/
structure RequestsOwned (trace : List Observation) (s : Server) : Prop where
  /-- A connection that goes away removes and frees no request but its own. -/
  own : ∀ removal ∈ (ledger trace).erased, removal.1 = removal.2
  pushedOnce : (ledger trace).pushed.Nodup
  /-- Every request that its own connection did not remove was processed or waits, in the order of
  the pushes. -/
  inOrder : (ledger trace).pushed.filter (fun id => (id, id) ∉ (ledger trace).erased) =
    (ledger trace).processed ++ (ledger trace).queue.map Slot.owner
  waiting : (ledger trace).queue.map queued = s.history
  freedOnce : ((ledger trace).processed ++ (ledger trace).lost).Nodup

/-- Whenever a connection searches the queue for the address it has kept, no request of another
connection lies there. -/
def SearchesOwn (trace : List Observation) : Prop :=
  Throughout (fun before use => (Ledger.of before).Respects use) (uses trace)

theorem requestsOwned_of_own (h : Booked trace s) (hown : (ledger trace).Owned) : RequestsOwned trace s := by
  have hbalanced : (ledger trace).Balanced := Ledger.balanced_of h.admits
  refine ⟨hown, hbalanced.pushedOnce, ?_, h.queue, hbalanced.leftOnce⟩
  rw [← hbalanced.inOrder]
  apply List.filter_congr
  intro id _
  have hlost : (id, id) ∈ (ledger trace).erased ↔ id ∈ (ledger trace).lost := by
    rw [Ledger.lost, List.mem_map]
    constructor
    · intro hmem
      exact ⟨(id, id), hmem, rfl⟩
    · intro hmem
      obtain ⟨removal, hremoval, rfl⟩ := hmem
      have hself : (removal.2, removal.2) = removal := Prod.ext (hown removal hremoval).symm rfl
      rwa [hself]
  simp only [hlost]

/-- **Requests stay with their connections** exactly if no search comes upon a foreign one. -/
theorem request_ownership (hrun : Reached setup tasks trace s) : RequestsOwned trace s ↔ SearchesOwn trace := by
  have hbooked := hrun.booked
  have howned : (ledger trace).Owned ↔ SearchesOwn trace := Ledger.owned_of_iff hbooked.admits
  constructor
  · intro h
    exact howned.mp h.own
  · intro h
    exact requestsOwned_of_own hbooked (howned.mpr h)

end booked

/-! ### Two visits -/

/-- The request of user 7 is loaded before user 8 comes, whose request gets the given address; then
user 7 leaves. -/
def twoVisits (address : Nat) : List Move :=
  enters 0 7 5 (opening userSeven) ++ activates 0 5 1 ++ [.request, .loaded] ++
    enters 1 8 address (opening userEight) ++
      [.thread 1 .cycle (calm address), .thread 0 .recv (calm 1), .thread 0 .cycle (calm 1)]

/-- The second request gets an address of its own. -/
theorem request_ownership_apart : ∃ trace s, Reached twoVisitors [] trace s ∧
    (ledger trace).pushed = [0, 1] ∧ RequestsOwned trace s := by
  obtain ⟨trace, s, hrun, hwanted⟩ := reached_of_play twoVisitors [] (twoVisits 6)
    (fun next => (ledger next.2).pushed = [0, 1] ∧ (ledger next.2).erased = []) (by decide +kernel)
  obtain ⟨hpushed, herased⟩ := of_decide_eq_true hwanted
  refine ⟨trace, s, hrun, hpushed, (request_ownership hrun).mpr ?_⟩
  refine (Ledger.owned_of_iff hrun.booked.admits).mp fun removal hremoval => ?_
  change removal ∈ (ledger trace).erased at hremoval
  rw [herased] at hremoval
  exact (List.not_mem_nil hremoval).elim

/-- The second request gets the address of the first, and user 7 removes it. -/
theorem not_request_ownership_reused : ¬ ∀ setup tasks trace s,
    Reached setup tasks trace s → RequestsOwned trace s := by
  intro h
  obtain ⟨trace, s, hrun, hwanted⟩ := reached_of_play twoVisitors [] (twoVisits 5)
    (fun next => (0, 1) ∈ (ledger next.2).erased) (by decide +kernel)
  have hforeign : (0, 1) ∈ (ledger trace).erased := of_decide_eq_true hwanted
  exact absurd ((h _ _ trace s hrun).own _ hforeign) (by decide)

end Server

end LinkedonPush

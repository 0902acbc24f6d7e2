import LinkedonPush.App.Enrolment
import LinkedonPush.App.Schedule

/-!
# The maps of `LPushSource`

`clients` and `sources` are two indexes of one partial map: the connections that have a client, by
the key of the client and by the descriptor of the connection.
-/

namespace LinkedonPush

open Theory

/-- What the two maps of `LPushSource` know about a connection with a client. -/
structure Entry where
  stfd : Nat
  key : Bytes
deriving DecidableEq

def LPushConn.entry (c : LPushConn) : Option Entry := c.client.map fun client => ⟨c.stfd, client.key⟩

namespace Server

/-- The connections with a client. -/
def entries (s : Server) (id : Nat) : Option Entry := (s.conns id).bind LPushConn.entry

def Observation.deletesSource (id : Nat) : Observation → Bool
  | .sourceDeleted id' => id' = id
  | _ => false

def createsClient : Effect → Bool
  | .createClient _ => true
  | _ => false

def deletesClient : Effect → Bool
  | .deleteClient _ => true
  | _ => false

/-- Both maps are exact, and a descriptor in use belongs to one connection. -/
structure Registered (trace : List Observation) (s : Server) : Prop where
  clients : Indexes s.clients Entry.key s.entries
  sources : Indexes s.sources Entry.stfd s.entries
  distinct : ∀ id id' c c', s.conns id = some c → s.conns id' = some c' → c.point ≠ .closed →
    c'.point ≠ .closed → c.stfd = c'.stfd → id = id'
  sourcesDeleted : ∀ id, trace.countP (Observation.deletesSource id) = (view id trace).countP deletesClient

/-! ### The effects of one step -/

section perform

variable {id : Nat} {s : Server} {effects : List Effect}

theorem performAll_append (s : Server) (effects more : List Effect) :
    performAll id s (effects ++ more) =
      ((performAll id (performAll id s effects).1 more).1,
        (performAll id s effects).2 ++ (performAll id (performAll id s effects).1 more).2) := by
  induction effects generalizing s with
  | nil => rfl
  | cons e effects ih =>
      simp only [List.cons_append, performAll, ih, List.append_assoc]

theorem insertNew_of_none {κ : Type} [DecidableEq κ] {map : κ → Option Nat} {key : κ} (h : map key = none) :
    insertNew map key id = Function.update map key (some id) := by
  rw [insertNew, h]

/-- Other effects leave both maps alone. -/
theorem performAll_unregistering (id : Nat) (h : ∀ e ∈ effects, LPushConn.registration e = false) (s : Server) :
    (performAll id s effects).1.clients = s.clients ∧ (performAll id s effects).1.sources = s.sources ∧
      ∀ id', (performAll id s effects).2.countP (Observation.deletesSource id') = 0 := by
  induction effects generalizing s with
  | nil => exact ⟨rfl, rfl, fun _ => rfl⟩
  | cons e effects ih =>
      obtain ⟨he, heffects⟩ := List.forall_mem_cons.mp h
      obtain ⟨hclients, hsources, hcount⟩ := ih heffects (perform id s e).1
      have hsame : (perform id s e).1.clients = s.clients ∧ (perform id s e).1.sources = s.sources ∧
          (perform id s e).2 = [] := by
        cases e with
        | createClient client | destroyKey key | deleteClient cstfd => cases he
        | _ => exact ⟨rfl, rfl, rfl⟩
      have hshown : (performAll id s (e :: effects)).2 =
          .conn id e :: (performAll id (perform id s e).1 effects).2 := by
        simp only [performAll, hsame.2.2, List.cons_append, List.nil_append]
      refine ⟨hclients.trans hsame.1, hsources.trans hsame.2.1, fun id' => ?_⟩
      rw [hshown, List.countP_cons, hcount id']
      rfl

theorem deletesClient_unregistering (h : ∀ e ∈ effects, LPushConn.registration e = false) :
    effects.countP deletesClient = 0 := by
  rw [List.countP_eq_zero]
  intro e he
  have hfalse := h e he
  cases e with
  | deleteClient cstfd => cases hfalse
  | _ => exact Bool.false_ne_true

theorem unregistering_of_plain (hplain : ∀ e ∈ effects, e.Plain) :
    ∀ e ∈ effects, LPushConn.registration e = false := by
  intro e he
  have h := hplain e he
  cases e with
  | createClient client | destroyKey key | deleteClient cstfd => exact h.elim
  | _ => rfl

theorem unregistering_concat {e : Effect} (hplain : ∀ e ∈ effects, e.Plain)
    (he : LPushConn.registration e = false) : ∀ e' ∈ effects ++ [e], LPushConn.registration e' = false := by
  intro e' he'
  rcases List.mem_append.mp he' with hfirst | hlast
  · exact unregistering_of_plain hplain e' hfirst
  · rwa [List.mem_singleton.mp hlast]

end perform

section registered

variable {setup : Setup} {tasks : List Bytes} {trace shown : List Observation} {s s' : Server}

theorem entries_update {id : Nat} {c : LPushConn} (hconns : s'.conns = Function.update s.conns id (some c)) :
    s'.entries = Function.update s.entries id c.entry := by
  funext id'
  rw [entries, hconns]
  by_cases hid : id' = id
  · subst hid
    rw [Function.update_self, Function.update_self, Option.bind_some]
  · rw [Function.update_of_ne hid, Function.update_of_ne hid, entries]

theorem entry_of_bare {c c' : LPushConn} (hstfd : c'.stfd = c.stfd)
    (hclient : c'.client.map LPushClient.bare = c.client.map LPushClient.bare) : c'.entry = c.entry := by
  unfold LPushConn.entry
  cases hc : c.client with
  | none =>
      rw [hc, Option.map_none, Option.map_eq_none_iff] at hclient
      rw [hclient]
      rfl
  | some client =>
      rw [hc, Option.map_some] at hclient
      obtain ⟨client', hc', hbare⟩ := Option.map_eq_some_iff.mp hclient
      rw [hc', Option.map_some, Option.map_some, hstfd, (LPushConn.key_of_bare hbare).1]

/-- The threads of a connection that goes on are where they may be. -/
theorem Reached.coherent (hrun : Reached setup tasks trace s) {id : Nat} {c : LPushConn} {env : Env} {w : World}
    {thread : LPushConn.ThreadName} {p : Progress} (hc : s.conns id = some c)
    (hstep : c.step env w thread = some p) : LPushConn.Coherent (dialogue (view id trace)) c :=
  (LPushConn.history_proper (hrun.history hc)).2 (LPushConn.crashed_of_step hstep)

/-- An entry stands for a connection that is open. -/
theorem Reached.open_of_entry (hrun : Reached setup tasks trace s) {id : Nat} {a : Entry}
    (ha : s.entries id = some a) :
    ∃ c client, s.conns id = some c ∧ c.client = some client ∧ c.stfd = a.stfd ∧ client.key = a.key ∧
      c.point ≠ .closed := by
  obtain ⟨c, hc, hentry⟩ := Option.bind_eq_some_iff.mp ha
  obtain ⟨client, hclient, rfl⟩ := Option.map_eq_some_iff.mp hentry
  refine ⟨c, client, hc, hclient, rfl, rfl, ?_⟩
  cases (LPushConn.history_vetted (hrun.history hc)).standing with
  | unknown hnone => cases hnone.symm.trans hclient
  | known _ _ _ _ _ _ hopen => exact hopen
  | forgotten _ hnone => cases hnone.symm.trans hclient

/-- A step that changes nobody's entry. -/
theorem Registered.same (h : Registered trace s) (hclients : s'.clients = s.clients)
    (hsources : s'.sources = s.sources) (hentries : s'.entries = s.entries)
    (hopen : ∀ id c', s'.conns id = some c' → c'.point ≠ .closed →
      ∃ c, s.conns id = some c ∧ c.point ≠ .closed ∧ c.stfd = c'.stfd)
    (hcount : ∀ id, shown.countP (Observation.deletesSource id) = (view id shown).countP deletesClient) :
    Registered (trace ++ shown) s' := by
  refine ⟨?_, ?_, fun id id' c c' hc hc' hopen₁ hopen₂ hstfd => ?_, fun id => ?_⟩
  · rw [hclients, hentries]
    exact h.clients
  · rw [hsources, hentries]
    exact h.sources
  · obtain ⟨c₁, hc₁, hpoint₁, hstfd₁⟩ := hopen id c hc hopen₁
    obtain ⟨c₂, hc₂, hpoint₂, hstfd₂⟩ := hopen id' c' hc' hopen₂
    exact h.distinct id id' c₁ c₂ hc₁ hc₂ hpoint₁ hpoint₂ (by rw [hstfd₁, hstfd₂, hstfd])
  · rw [List.countP_append, view_append, List.countP_append, h.sourcesDeleted id, hcount id]

/-- The open connections after a step of connection `id`. -/
theorem open_update {id : Nat} {c c' : LPushConn} (hc : s.conns id = some c)
    (hpoint : c'.point ≠ .closed → c.point ≠ .closed) (hstfd : c'.stfd = c.stfd)
    (hconns : s'.conns = Function.update s.conns id (some c')) :
    ∀ id₁ c₁, s'.conns id₁ = some c₁ → c₁.point ≠ .closed →
      ∃ c₂, s.conns id₁ = some c₂ ∧ c₂.point ≠ .closed ∧ c₂.stfd = c₁.stfd := by
  intro id₁ c₁ hc₁ hopen
  rw [hconns] at hc₁
  rcases update_eq_some.mp hc₁ with ⟨rfl, rfl⟩ | ⟨-, hc₁⟩
  · exact ⟨c, hc, hpoint hopen, hstfd.symm⟩
  · exact ⟨c₁, hc₁, hopen, rfl⟩

/-- A connection goes on with the entry it had. -/
theorem entries_eq_of_entry_eq {id : Nat} {c c' : LPushConn} (hc : s.conns id = some c)
    (hentry : c'.entry = c.entry) (hconns : s'.conns = Function.update s.conns id (some c')) :
    s'.entries = s.entries := by
  have hsame : s.entries id = c'.entry := by rw [entries, hc, Option.bind_some, hentry]
  rw [entries_update hconns, ← hsame, Function.update_eq_self]

theorem Registered.pushed {id : Nat} {msg : LPushWorkerMessage} (h : Registered trace s)
    (hpush : s.push id msg = some s') : Registered (trace ++ [.conn id (.queued msg)]) s' := by
  obtain ⟨c, c', hc, hqueued, rfl⟩ := push_spec hpush
  obtain ⟨client, hclient, rfl⟩ := Option.map_eq_some_iff.mp hqueued
  refine h.same rfl rfl (entries_eq_of_entry_eq hc ?_ rfl) (open_update hc ?_ ?_ rfl) fun id' => ?_
  · refine entry_of_bare rfl ?_
    rw [hclient]
    rfl
  · exact fun hopen => hopen
  · rfl
  · by_cases hid : id = id'
    · subst hid
      rw [view_conn_self]
      rfl
    · rw [view_conn_ne hid]
      rfl

theorem Registered.delivered {address : LPushWorkerMessage → Bytes × Bytes × Bytes} (h : Registered trace s)
    (hrun : Run (· = s) (Delivering address) shown s') : Registered (trace ++ shown) s' := by
  refine hrun.invariant (fun shown s' => Registered (trace ++ shown) s') ?_ ?_
  · rintro _ rfl
    rw [List.append_nil]
    exact h
  · intro shown s' more s'' hbefore hstep
    rw [← List.append_assoc]
    have hidle : ∀ o : Observation, (∀ id, view id [o] = []) → (∀ id, o.deletesSource id = false) →
        Registered (trace ++ shown ++ [o]) s' := by
      intro o hview hdeletes
      refine hbefore.same rfl rfl rfl (fun id c hc hopen => ⟨c, hc, hopen, rfl⟩) fun id => ?_
      rw [hview, List.countP_singleton, hdeletes]
      rfl
    cases hstep with
    | dispatched element => exact hidle _ (fun _ => rfl) fun _ => rfl
    | document json => exact hidle _ (fun _ => rfl) fun _ => rfl
    | queued id msg hinstance hpush => exact hbefore.pushed hpush

theorem Registered.accept (h : Registered trace s) (hfresh : ∀ id, s.accepted ≤ id → s.conns id = none)
    (stfd : Nat) (hfd : ¬ s.InUse stfd) (beyond : Bytes) (fcntl created : Bool) :
    Registered (trace ++ (acceptClient setup.conf stfd beyond fcntl created s).2)
      (acceptClient setup.conf stfd beyond fcntl created s).1 := by
  rcases acceptClient_spec setup.conf stfd beyond fcntl created s with hsame | ⟨c, hnew, haccepted⟩
  · rw [hsame]
    exact h.same rfl rfl rfl (fun id c hc hopen => ⟨c, hc, hopen, rfl⟩) fun _ => rfl
  · rw [haccepted]
    have hstfd : c.stfd = stfd := by rcases hnew with rfl | rfl <;> rfl
    have hentry : s.entries s.accepted = c.entry := by
      rw [entries, hfresh s.accepted le_rfl]
      rcases hnew with rfl | rfl <;> rfl
    have hentries : ∀ s' : Server, s'.conns = Function.update s.conns s.accepted (some c) →
        s'.entries = s.entries := by
      intro s' hconns
      rw [entries_update hconns, ← hentry, Function.update_eq_self]
    -- the descriptor of the new connection is nobody else's
    have hother : ∀ id c', s.conns id = some c' → c'.point ≠ .closed → c'.stfd ≠ stfd :=
      fun id c' hc' hopen heq => hfd ⟨id, c', hc', heq, hopen⟩
    refine ⟨?_, ?_, fun id id' c₁ c₂ hc₁ hc₂ hopen₁ hopen₂ heq => ?_, fun id => ?_⟩
    · rw [hentries _ rfl]
      exact h.clients
    · rw [hentries _ rfl]
      exact h.sources
    · rcases update_eq_some.mp hc₁ with ⟨rfl, rfl⟩ | ⟨-, hc₁⟩
      · rcases update_eq_some.mp hc₂ with ⟨rfl, -⟩ | ⟨-, hc₂⟩
        · rfl
        · exact (hother id' c₂ hc₂ hopen₂ (heq.symm.trans hstfd)).elim
      · rcases update_eq_some.mp hc₂ with ⟨rfl, rfl⟩ | ⟨-, hc₂⟩
        · exact (hother id c₁ hc₁ hopen₁ (heq.trans hstfd)).elim
        · exact h.distinct id id' c₁ c₂ hc₁ hc₂ hopen₁ hopen₂ heq
    · rw [List.countP_append, view_append, List.countP_append, h.sourcesDeleted id]
      rfl

/-- A thread step that registers and deletes nobody. -/
theorem Registered.unregistering {id : Nat} {c c' : LPushConn} {effects : List Effect}
    (h : Registered trace s) (hc : s.conns id = some c) (hopen : c.point ≠ .closed)
    (hstfd : c'.stfd = c.stfd) (hentry : c'.entry = c.entry)
    (heffects : ∀ e ∈ effects, LPushConn.registration e = false) :
    Registered (trace ++ (performAll id
        { s with conns := Function.update s.conns id (some c'), crashed := c'.crashed } effects).2)
      (performAll id
        { s with conns := Function.update s.conns id (some c'), crashed := c'.crashed } effects).1 := by
  obtain ⟨hclients, hsources, hcount⟩ := performAll_unregistering id heffects
    { s with conns := Function.update s.conns id (some c'), crashed := c'.crashed }
  have hconns := (performAll_frame id
    { s with conns := Function.update s.conns id (some c'), crashed := c'.crashed } effects).1
  refine h.same hclients hsources (entries_eq_of_entry_eq hc hentry hconns)
    (open_update hc (fun _ => hopen) hstfd hconns) fun id' => ?_
  rw [hcount id']
  by_cases hid : id = id'
  · subst hid
    rw [view_performAll_self, deletesClient_unregistering heffects]
  · rw [view_performAll_ne id _ hid]
    rfl

/-- A thread step that moves the entry of its connection and both maps with it. -/
theorem Registered.moves {id : Nat} {c c' : LPushConn} (h : Registered trace s) (hc : s.conns id = some c)
    (hopen : c.point ≠ .closed) (hstfd : c'.stfd = c.stfd)
    (hconns : s'.conns = Function.update s.conns id (some c'))
    (hclients : Indexes s'.clients Entry.key (Function.update s.entries id c'.entry))
    (hsources : Indexes s'.sources Entry.stfd (Function.update s.entries id c'.entry))
    (hcount : ∀ id, shown.countP (Observation.deletesSource id) = (view id shown).countP deletesClient) :
    Registered (trace ++ shown) s' := by
  refine ⟨?_, ?_, fun id₁ id₂ c₁ c₂ hc₁ hc₂ hopen₁ hopen₂ heq => ?_, fun id' => ?_⟩
  · rw [entries_update hconns]
    exact hclients
  · rw [entries_update hconns]
    exact hsources
  · obtain ⟨c₃, hc₃, hopen₃, hstfd₃⟩ := open_update hc (fun _ => hopen) hstfd hconns id₁ c₁ hc₁ hopen₁
    obtain ⟨c₄, hc₄, hopen₄, hstfd₄⟩ := open_update hc (fun _ => hopen) hstfd hconns id₂ c₂ hc₂ hopen₂
    exact h.distinct id₁ id₂ c₃ c₄ hc₃ hc₄ hopen₃ hopen₄ (by rw [hstfd₃, hstfd₄, heq])
  · rw [List.countP_append, view_append, List.countP_append, h.sourcesDeleted id', hcount id']

section moves

variable {id : Nat} {c c' : LPushConn} {effects : List Effect}

/-- A client enters both maps under a key and a descriptor that were not there. -/
theorem Registered.enrolled {msg : LPushHandshakeMessage} (h : Registered trace s)
    (hrun : Reached setup tasks trace s) (hc : s.conns id = some c) (hopen : c.point ≠ .closed)
    (hplain : ∀ e ∈ effects, e.Plain) (hstfd : c'.stfd = c.stfd) (hnone : c.client = none)
    (hclient : c'.client = some (.create c.stfd msg))
    (hunknown : (s.env setup).registered msg.userId msg.appId msg.screteKey = false) :
    Registered (trace ++ (performAll id
        { s with conns := Function.update s.conns id (some c'), crashed := c'.crashed }
        (effects ++ [.createClient (.create c.stfd msg)])).2)
      (performAll id { s with conns := Function.update s.conns id (some c'), crashed := c'.crashed }
        (effects ++ [.createClient (.create c.stfd msg)])).1 := by
  generalize hnext :
    ({ s with conns := Function.update s.conns id (some c'), crashed := c'.crashed } : Server) = next
  have hsame : next.clients = s.clients ∧ next.sources = s.sources := by
    rw [← hnext]
    exact ⟨rfl, rfl⟩
  obtain ⟨hclients, hsources, hcount⟩ := performAll_unregistering id (unregistering_of_plain hplain) next
  have hconns := (performAll_frame id next (effects ++ [.createClient (.create c.stfd msg)])).1
  have hentry : s.entries id = none := by
    rw [entries, hc, Option.bind_some, LPushConn.entry, hnone]
    rfl
  have hentry' : c'.entry = some ⟨c.stfd, (LPushClient.create c.stfd msg).key⟩ := by
    rw [LPushConn.entry, hclient, hstfd]
    rfl
  have hkey : s.clients (LPushClient.create c.stfd msg).key = none :=
    Option.isNone_iff_eq_none.mp (Option.isSome_eq_false_iff.mp hunknown)
  -- the descriptor is in use, and whoever is in the map under it is open too
  have hdescriptor : s.sources c.stfd = none := by
    rw [Option.eq_none_iff_forall_ne_some]
    intro id' hid'
    obtain ⟨a, ha, hstfd'⟩ := (h.sources c.stfd id').mp hid'
    obtain ⟨c₂, client₂, hc₂, -, hc₂stfd, -, hopen₂⟩ := hrun.open_of_entry ha
    obtain rfl := h.distinct id' id c₂ c hc₂ hc hopen₂ hopen (hc₂stfd.trans hstfd')
    cases hentry.symm.trans ha
  rw [performAll_append] at hconns ⊢
  refine h.moves hc hopen hstfd (hconns.trans (by rw [← hnext])) ?_ ?_ fun id' => ?_
  · have hinserted : insertNew (performAll id next effects).1.clients (LPushClient.create c.stfd msg).key id =
        Function.update s.clients (LPushClient.create c.stfd msg).key (some id) := by
      rw [hclients, hsame.1, insertNew_of_none hkey]
    simp only [performAll, perform, hinserted, hentry']
    exact Indexes.insert (a := ⟨c.stfd, (LPushClient.create c.stfd msg).key⟩) h.clients hentry hkey
  · have hinserted : insertNew (performAll id next effects).1.sources c.stfd id =
        Function.update s.sources c.stfd (some id) := by
      rw [hsources, hsame.2, insertNew_of_none hdescriptor]
    simp only [performAll, perform, hentry', LPushClient.create, hinserted]
    exact Indexes.insert (a := ⟨c.stfd, (LPushClient.create c.stfd msg).key⟩) h.sources hentry hdescriptor
  · by_cases hid : id = id'
    · subst hid
      rw [view_append, view_performAll_self, view_performAll_self, List.countP_append, List.countP_append, hcount,
        deletesClient_unregistering (unregistering_of_plain hplain)]
      rfl
    · rw [view_append, view_performAll_ne id _ hid, view_performAll_ne id _ hid, List.countP_append, hcount]
      rfl

/-- The client of the connection leaves both maps, and its source is deleted with it. -/
theorem Registered.released {client : LPushClient} (h : Registered trace s) (hc : s.conns id = some c)
    (hopen : c.point ≠ .closed) (hplain : ∀ e ∈ effects, e.Plain) (hstfd : c'.stfd = c.stfd)
    (hclient : c.client = some client) (hcstfd : client.cstfd = c.stfd) (hnone : c'.client = none) :
    Registered (trace ++ (performAll id
        { s with conns := Function.update s.conns id (some c'), crashed := c'.crashed }
        (effects ++ [.destroyKey client.key, .deleteClient client.cstfd, .close])).2)
      (performAll id { s with conns := Function.update s.conns id (some c'), crashed := c'.crashed }
        (effects ++ [.destroyKey client.key, .deleteClient client.cstfd, .close])).1 := by
  generalize hnext :
    ({ s with conns := Function.update s.conns id (some c'), crashed := c'.crashed } : Server) = next
  have hsame : next.clients = s.clients ∧ next.sources = s.sources := by
    rw [← hnext]
    exact ⟨rfl, rfl⟩
  obtain ⟨hclients, hsources, hcount⟩ := performAll_unregistering id (unregistering_of_plain hplain) next
  have hconns := (performAll_frame id next
    (effects ++ [.destroyKey client.key, .deleteClient client.cstfd, .close])).1
  have hentry : s.entries id = some ⟨c.stfd, client.key⟩ := by
    rw [entries, hc, Option.bind_some, LPushConn.entry, hclient]
    rfl
  have hentry' : c'.entry = none := by
    rw [LPushConn.entry, hnone]
    rfl
  have hsource : s.sources client.cstfd = some id := by
    rw [hcstfd]
    exact (h.sources c.stfd id).mpr ⟨_, hentry, rfl⟩
  rw [performAll_append] at hconns ⊢
  refine h.moves hc hopen hstfd (hconns.trans (by rw [← hnext])) ?_ ?_ fun id' => ?_
  · simp only [performAll, perform, hsources, hsame.2, hsource, hclients, hsame.1, hentry']
    exact h.clients.remove hentry
  · simp only [performAll, perform, hsources, hsame.2, hsource, hentry']
    rw [hcstfd]
    exact h.sources.remove hentry
  · by_cases hid : id = id'
    · subst hid
      rw [view_append, view_performAll_self, view_performAll_self, List.countP_append, List.countP_append, hcount,
        deletesClient_unregistering (unregistering_of_plain hplain)]
      simp [performAll, perform, hsources, hsame.2, hsource, Observation.deletesSource, deletesClient,
        List.countP_cons]
    · rw [view_append, view_performAll_ne id _ hid, view_performAll_ne id _ hid, List.countP_append, hcount]
      simp [performAll, perform, hsources, hsame.2, hsource, Observation.deletesSource, hid]

end moves

theorem Reached.registered (hrun : Reached setup tasks trace s) : Registered trace s := by
  induction hrun with
  | start hinit =>
      rw [hinit]
      refine ⟨.empty Entry.key, .empty Entry.stfd, fun _ _ _ _ hc => ?_, fun _ => rfl⟩
      cases hc
  | next hbefore hstep ih =>
      cases hstep with
      | thread id thread w hrunning hfree haddress hthread =>
          obtain ⟨c, c', effects, hc, hstep, rfl⟩ := threadStep_spec hthread
          have hcoherent := Reached.coherent hbefore hc hstep
          have hopen : c.point ≠ .closed := by
            intro hclosed
            rw [hcoherent.step_closed hclosed] at hstep
            cases hstep
          have hcstfd : ∀ client, c.client = some client → client.cstfd = c.stfd := by
            intro client hclient
            cases (LPushConn.history_vetted (Reached.history hbefore hc)).standing with
            | unknown hnone => cases hnone.symm.trans hclient
            | known msg client' hsome hbare =>
                obtain rfl := Option.some.inj (hclient.symm.trans hsome)
                exact congrArg LPushClient.cstfd hbare
            | forgotten _ hnone => cases hnone.symm.trans hclient
          cases LPushConn.outcome_step hcoherent hstep with
          | kept hplain huser hclosed =>
              exact ih.unregistering hc hopen huser.stfd (entry_of_bare huser.stfd huser.client)
                (unregistering_of_plain hplain)
          | presented msg hplain hstfd hclient hmsg hjudged hopen' =>
              refine ih.unregistering hc hopen hstfd (entry_of_bare hstfd ?_) (unregistering_concat hplain rfl)
              rw [hclient]
          | refused msg hplain huser hclient hmsg hregistered hdismissed =>
              exact ih.unregistering hc hopen huser.stfd (entry_of_bare huser.stfd huser.client)
                (unregistering_concat hplain rfl)
          | enrolled msg hplain hstfd hkept hnone hmsg hclient hunknown hopen' =>
              exact ih.enrolled hbefore hc hopen hplain hstfd hnone hclient hunknown
          | released client hplain hstfd hclient hnone hmsg hclosed =>
              exact ih.released hc hopen hplain hstfd hclient (hcstfd client hclient) hnone
      | accept stfd beyond fcntl created hrunning hfree hfd =>
          exact ih.accept (Reached.projects hbefore).fresh stfd hfd beyond fcntl created
      | rpush element hrunning =>
          exact ih.same rfl rfl rfl (fun id c hc hopen => ⟨c, hc, hopen, rfl⟩) fun _ => rfl
      | lrange hrunning hfree hcycle =>
          obtain ⟨⟨s', index, shown⟩, hdispatch, rfl⟩ := Option.map_eq_some_iff.mp hcycle
          have hdelivered := ih.delivered (dispatchAll_run hdispatch)
          exact ⟨hdelivered.clients, hdelivered.sources, hdelivered.distinct, hdelivered.sourcesDeleted⟩
      | ltrim index hrunning hcycling =>
          exact ih.same rfl rfl rfl (fun id c hc hopen => ⟨c, hc, hopen, rfl⟩) fun _ => rfl
      | request address mie rest hrunning hfree hhistory =>
          exact ih.same rfl rfl rfl (fun id c hc hopen => ⟨c, hc, hopen, rfl⟩) fun _ => rfl
      | page mie result hrunning hloading hpage => exact ih.delivered (selectMongoHistoryLimit_run hpage)
      | loaded mie hrunning hloading =>
          exact ih.same rfl rfl rfl (fun id c hc hopen => ⟨c, hc, hopen, rfl⟩) fun _ => rfl

end registered

/-! ### The invariant -/

/-- What holds of both maps at every moment. -/
structure RegistryInvariant (setup : Setup) (trace : List Observation) (s : Server) : Prop where
  clients : ∀ key id, s.clients key = some id ↔
    ∃ c client, s.conns id = some c ∧ c.client = some client ∧ client.key = key
  sources : ∀ stfd id, s.sources stfd = some id ↔
    ∃ c client, s.conns id = some c ∧ c.client = some client ∧ c.stfd = stfd
  unique : ∀ id id' c c' client client', s.conns id = some c → s.conns id' = some c' →
    c.client = some client → c'.client = some client' → client.key = client'.key → id = id'
  /-- Client and source of a connection are created together at most once, and deleted together. -/
  deletedOnce : ∀ id c, s.conns id = some c →
    (view id trace).countP createsClient ≤ 1 ∧
      (view id trace).countP deletesClient + (if c.client.isSome then 1 else 0) =
        (view id trace).countP createsClient ∧
      trace.countP (Observation.deletesSource id) = (view id trace).countP deletesClient
  closed : ∀ id c, s.conns id = some c → c.point = .closed → c.client = none
  /-- Whatever a refused connection still does, its teardown included. -/
  refused : ∀ id msg thread w next, .refused msg ∈ view id trace →
    threadStep setup id thread w s = some next → next.1.clients = s.clients ∧ next.1.sources = s.sources

section invariant

variable {setup : Setup} {tasks : List Bytes} {trace : List Observation} {s : Server}

theorem entries_eq_some {id : Nat} {a : Entry} : s.entries id = some a ↔
    ∃ c client, s.conns id = some c ∧ c.client = some client ∧ c.stfd = a.stfd ∧ client.key = a.key := by
  simp only [entries, LPushConn.entry, Option.bind_eq_some_iff, Option.map_eq_some_iff]
  constructor
  · intro h
    obtain ⟨c, hc, client, hclient, rfl⟩ := h
    exact ⟨c, client, hc, hclient, rfl, rfl⟩
  · intro h
    obtain ⟨c, client, hc, hclient, hstfd, hkey⟩ := h
    exact ⟨c, hc, client, hclient, by rw [hstfd, hkey]⟩

theorem countP_registrations {p : Effect → Bool} (hp : ∀ e, p e = true → LPushConn.registration e = true)
    (effects : List Effect) : effects.countP p = (LPushConn.registrations effects).countP p := by
  rw [LPushConn.registrations, List.countP_filter]
  apply List.countP_congr
  intro e _
  constructor
  · intro he
    rw [he, hp e he]
    rfl
  · intro he
    exact (Bool.and_eq_true_iff.mp he).1

theorem registration_of_createsClient (e : Effect) (h : createsClient e = true) :
    LPushConn.registration e = true := by
  cases e with
  | createClient client => rfl
  | _ => cases h

theorem registration_of_deletesClient (e : Effect) (h : deletesClient e = true) :
    LPushConn.registration e = true := by
  cases e with
  | deleteClient cstfd => rfl
  | _ => cases h

/-- A key leads to the living client that has it. -/
theorem Reached.clients_iff (hrun : Reached setup tasks trace s) (key : Bytes) (id : Nat) : s.clients key = some id ↔
    ∃ c client, s.conns id = some c ∧ c.client = some client ∧ client.key = key := by
  rw [hrun.registered.clients key id]
  constructor
  · intro hentry
    obtain ⟨a, ha, rfl⟩ := hentry
    obtain ⟨c, client, hc, hclient, -, hkey⟩ := entries_eq_some.mp ha
    exact ⟨c, client, hc, hclient, hkey⟩
  · intro hlive
    obtain ⟨c, client, hc, hclient, hkey⟩ := hlive
    exact ⟨⟨c.stfd, key⟩, entries_eq_some.mpr ⟨c, client, hc, hclient, rfl, hkey⟩, rfl⟩

/-- A descriptor leads to the connection that has it and a client. -/
theorem Reached.sources_iff (hrun : Reached setup tasks trace s) (stfd id : Nat) : s.sources stfd = some id ↔
    ∃ c client, s.conns id = some c ∧ c.client = some client ∧ c.stfd = stfd := by
  rw [hrun.registered.sources stfd id]
  constructor
  · intro hentry
    obtain ⟨a, ha, rfl⟩ := hentry
    obtain ⟨c, client, hc, hclient, hstfd, -⟩ := entries_eq_some.mp ha
    exact ⟨c, client, hc, hclient, hstfd⟩
  · intro hlive
    obtain ⟨c, client, hc, hclient, hstfd⟩ := hlive
    exact ⟨⟨stfd, client.key⟩, entries_eq_some.mpr ⟨c, client, hc, hclient, hstfd, rfl⟩, rfl⟩

theorem Reached.client_of_closed (hrun : Reached setup tasks trace s) {id : Nat} {c : LPushConn}
    (hc : s.conns id = some c) (hclosed : c.point = .closed) : c.client = none := by
  cases (LPushConn.history_vetted (hrun.history hc)).standing with
  | unknown hnone => exact hnone
  | known _ _ _ _ _ _ hopen => exact (hopen hclosed).elim
  | forgotten _ hnone => exact hnone

/-- **The registry.** -/
theorem registry_invariant (hrun : Reached setup tasks trace s) : RegistryInvariant setup trace s := by
  have h := hrun.registered
  refine ⟨hrun.clients_iff, hrun.sources_iff, fun id id' c c' client client' hc hc' hclient hclient' hkey => ?_,
    fun id c hc => ?_, fun id c hc => hrun.client_of_closed hc, fun id msg thread w next hrefused hthread => ?_⟩
  · have hentry : s.entries id = some ⟨c.stfd, client.key⟩ :=
      entries_eq_some.mpr ⟨c, client, hc, hclient, rfl, rfl⟩
    have hentry' : s.entries id' = some ⟨c'.stfd, client'.key⟩ :=
      entries_eq_some.mpr ⟨c', client', hc', hclient', rfl, rfl⟩
    exact h.clients.eq_of_key_eq hentry hentry' hkey
  · rw [h.sourcesDeleted id, countP_registrations registration_of_createsClient,
      countP_registrations registration_of_deletesClient]
    cases (LPushConn.history_vetted (hrun.history hc)).standing with
    | unknown hnone htrace =>
        rw [htrace, hnone]
        exact ⟨Nat.zero_le _, rfl, rfl⟩
    | known msg client hsome _ _ _ _ htrace =>
        rw [htrace, hsome]
        exact ⟨le_rfl, rfl, rfl⟩
    | forgotten client hnone _ htrace =>
        rw [htrace, hnone]
        exact ⟨le_rfl, rfl, rfl⟩
  · obtain ⟨c, c', effects, hc, hstep, rfl⟩ := threadStep_spec hthread
    have hhistory := hrun.history hc
    have hcoherent := hrun.coherent hc hstep
    have hdismissed := ((LPushConn.history_vetted hhistory).refused msg hrefused).1
    have hplain := (hcoherent.step_dismissed hdismissed hstep).2
    obtain ⟨hclients, hsources, -⟩ := performAll_unregistering id (unregistering_of_plain hplain)
      { s with conns := Function.update s.conns id (some c'), crashed := c'.crashed }
    exact ⟨hclients, hsources⟩

end invariant

/-- User 7 comes in, and once more while it is connected; user 8 gets the descriptor of the connection that
was refused; then user 7 leaves. -/
def comesAndGoes : List Move :=
  enters 0 7 5 (opening userSeven) ++ activates 0 5 1 ++
    enters 1 8 6 (opening userSeven) ++ [.thread 1 .cycle (calm 6)] ++
      enters 2 8 6 (opening userEight) ++ activates 2 6 1 ++
        [.thread 0 .recv (calm 1), .thread 0 .cycle (calm 1), .thread 0 .consum (calm 1), .thread 0 .cycle (calm 1)]

/-- User 8 is the one who is left, under both keys. -/
theorem registry_invariant_comesAndGoes : ∃ trace s, Reached twoVisitors [] trace s ∧
    (view 0 trace).countP deletesClient = 1 ∧
    (written (view 1 trace)).map (fun write => frameKind write.1) = [.handshake 1, .connection 2] ∧
    s.clients (text "7appkey") = none ∧ s.clients (text "8appkey") = some 2 ∧
    s.sources 7 = none ∧ s.sources 8 = some 2 ∧ RegistryInvariant twoVisitors trace s := by
  obtain ⟨trace, s, hrun, hwanted⟩ := reached_of_play twoVisitors [] comesAndGoes
    (fun next => (view 0 next.2).countP deletesClient = 1 ∧
      (written (view 1 next.2)).map (fun write => frameKind write.1) = [.handshake 1, .connection 2] ∧
      next.1.clients (text "7appkey") = none ∧ next.1.clients (text "8appkey") = some 2 ∧
      next.1.sources 7 = none ∧ next.1.sources 8 = some 2) (by decide +kernel)
  obtain ⟨hdeleted, hwritten, hseven, height, hfreed, hreused⟩ := of_decide_eq_true hwanted
  exact ⟨trace, s, hrun, hdeleted, hwritten, hseven, height, hfreed, hreused, registry_invariant hrun⟩

end Server

end LinkedonPush

import Mathlib.Data.Set.Function
import LinkedonPush.App.Login

/-!
# Who is reached

Clients are looked up under the concatenation of user, application and secret. A run in which
different triples have different concatenations never confuses two users, and a run in which some do
not may.
-/

namespace LinkedonPush

open Theory

namespace Server

/-! ### Triples -/

/-- The concatenation under which a triple is looked up. -/
def tripleKey (t : Bytes × Bytes × Bytes) : Bytes := sourceKey t.1 t.2.1 t.2.2

/-- The triple of a user who logs in. -/
def visitor (msg : LPushHandshakeMessage) : Bytes × Bytes × Bytes := (msg.userId, msg.appId, msg.screteKey)

/-- The triple of a client. -/
def holder (client : LPushClient) : Bytes × Bytes × Bytes := (client.userId, client.appId, client.screteKey)

theorem holder_of_bare {client : LPushClient} {stfd : Nat} {msg : LPushHandshakeMessage}
    (h : client.bare = .create stfd msg) : holder client = visitor msg := by
  have huserId : client.userId = msg.userId := congrArg LPushClient.userId h
  have happId : client.appId = msg.appId := congrArg LPushClient.appId h
  have hscreteKey : client.screteKey = msg.screteKey := congrArg LPushClient.screteKey h
  rw [holder, visitor, huserId, happId, hscreteKey]

/-- The triples that a run looks up: of the users who log in, of the elements of the list, and of
the loader's requests. -/
inductive Named (platform : Platform) (trace : List Observation) : Bytes × Bytes × Bytes → Prop where
  | presented {id : Nat} {msg : LPushHandshakeMessage} (h : .conn id (.presented msg) ∈ trace) :
      Named platform trace (visitor msg)
  | dispatched {element : Bytes} {lwm : LPushWorkerMessage} (h : .dispatched element ∈ trace)
      (hlwm : LPushWorkerMessage.ofJson platform (cStr element) = some lwm) : Named platform trace (addressee lwm)
  | request {mie : MongoIOEntity} (h : .request mie ∈ trace) : Named platform trace (requester mie)

/-- The loader is at work on this request. -/
def Serving (trace : List Observation) (mie : MongoIOEntity) : Prop :=
  ∃ before middle, trace = before ++ .request mie :: middle ∧ ∀ mie', .request mie' ∉ middle

/-- The loader was handed the document for this request. -/
def Loaded (trace : List Observation) (mie : MongoIOEntity) (json : Bytes) : Prop :=
  ∃ before after, trace = before ++ .document json :: after ∧ Serving before mie

/-- The client of connection `id` belongs to this user. -/
def Enrolled (trace : List Observation) (id : Nat) (msg : LPushHandshakeMessage) : Prop :=
  .conn id (.presented msg) ∈ trace ∧ ∃ stfd, .conn id (.createClient (.create stfd msg)) ∈ trace

/-- Connection `id` has this user's client now. -/
def Connected (trace : List Observation) (id : Nat) (msg : LPushHandshakeMessage) : Prop :=
  Enrolled trace id msg ∧ ∀ cstfd, .conn id (.deleteClient cstfd) ∉ trace

section trace

variable {platform : Platform} {trace shown : List Observation} {id : Nat} {mie : MongoIOEntity} {json : Bytes}
  {msg : LPushHandshakeMessage}

theorem Serving.append (h : Serving trace mie) (hshown : ∀ mie', .request mie' ∉ shown) :
    Serving (trace ++ shown) mie := by
  obtain ⟨before, middle, rfl, hmiddle⟩ := h
  refine ⟨before, middle ++ shown, by rw [List.append_assoc, List.cons_append], fun mie' hmem => ?_⟩
  rcases List.mem_append.mp hmem with hfirst | hlast
  · exact hmiddle mie' hfirst
  · exact hshown mie' hlast

theorem Serving.loaded (h : Serving trace mie) (hshown : ∀ mie', .request mie' ∉ shown)
    (hdocument : .document json ∈ shown) : Loaded (trace ++ shown) mie json := by
  obtain ⟨before, after, rfl⟩ := List.append_of_mem hdocument
  refine ⟨trace ++ before, after, by rw [List.append_assoc], h.append fun mie' hmem => ?_⟩
  exact hshown mie' (List.mem_append_left _ hmem)

theorem Loaded.append (h : Loaded trace mie json) (shown : List Observation) :
    Loaded (trace ++ shown) mie json := by
  obtain ⟨before, after, rfl, hserving⟩ := h
  exact ⟨before, after ++ shown, by rw [List.append_assoc, List.cons_append], hserving⟩

theorem Named.append {t : Bytes × Bytes × Bytes} (h : Named platform trace t) (shown : List Observation) :
    Named platform (trace ++ shown) t := by
  cases h with
  | presented h => exact .presented (List.mem_append_left _ h)
  | dispatched h hlwm => exact .dispatched (List.mem_append_left _ h) hlwm
  | request h => exact .request (List.mem_append_left _ h)

theorem Loaded.request (h : Loaded trace mie json) : .request mie ∈ trace := by
  obtain ⟨before, after, rfl, first, middle, rfl, -⟩ := h
  simp

theorem Loaded.document (h : Loaded trace mie json) : .document json ∈ trace := by
  obtain ⟨before, after, rfl, -⟩ := h
  simp

theorem Loaded.named (h : Loaded trace mie json) : Named platform trace (requester mie) := .request h.request

theorem Enrolled.append (h : Enrolled trace id msg) (shown : List Observation) :
    Enrolled (trace ++ shown) id msg := by
  obtain ⟨hpresented, stfd, hcreated⟩ := h
  exact ⟨List.mem_append_left _ hpresented, stfd, List.mem_append_left _ hcreated⟩

theorem Enrolled.named (h : Enrolled trace id msg) : Named platform trace (visitor msg) := .presented h.1

end trace

/-! ### The clients there are -/

section lookup

variable {setup : Setup} {tasks : List Bytes} {trace : List Observation} {s : Server} {id : Nat}
  {c : LPushConn} {client : LPushClient}

/-- Whoever has a client has logged in, and the client is still there. -/
theorem Reached.connected (hrun : Reached setup tasks trace s) (hc : s.conns id = some c)
    (hclient : c.client = some client) : ∃ msg, Connected trace id msg ∧ holder client = visitor msg := by
  cases (LPushConn.history_vetted (hrun.history hc)).standing with
  | unknown hnone => cases hnone.symm.trans hclient
  | known msg client' hsome hbare hpresented hadmits hopen htrace =>
      obtain rfl := Option.some.inj (hclient.symm.trans hsome)
      have hcreated : .createClient (.create c.stfd msg) ∈ LPushConn.registrations (view id trace) := by
        rw [htrace]
        exact List.mem_singleton_self _
      refine ⟨msg, ⟨⟨mem_view.mp hpresented, c.stfd, mem_view.mp (List.mem_filter.mp hcreated).1⟩,
        fun cstfd hmem => ?_⟩, holder_of_bare hbare⟩
      have hdeleted : .deleteClient cstfd ∈ LPushConn.registrations (view id trace) :=
        List.mem_filter.mpr ⟨mem_view.mpr hmem, rfl⟩
      rw [htrace] at hdeleted
      simp at hdeleted
  | forgotten _ hnone => cases hnone.symm.trans hclient

/-- What a lookup finds is a client with the same concatenation. -/
theorem Reached.found (hrun : Reached setup tasks trace s) {t : Bytes × Bytes × Bytes}
    (hfound : s.sourceInstance t.1 t.2.1 t.2.2 = some id) : ∃ c client msg, s.conns id = some c ∧
      c.client = some client ∧ holder client = visitor msg ∧ Connected trace id msg ∧
        tripleKey (visitor msg) = tripleKey t := by
  obtain ⟨c, client, hc, hclient, hkey⟩ := (hrun.clients_iff _ id).mp hfound
  obtain ⟨msg, hconnected, hholder⟩ := hrun.connected hc hclient
  refine ⟨c, client, msg, hc, hclient, hholder, hconnected, ?_⟩
  rw [← hholder]
  exact hkey

end lookup

/-! ### Where messages and refusals come from -/

/-- Where a message came from, and the triple its client was looked up with. -/
inductive Source (platform : Platform) (trace : List Observation) (msg : LPushWorkerMessage) :
    Bytes × Bytes × Bytes → Prop where
  | element {element : Bytes} (h : .dispatched element ∈ trace)
      (hmsg : LPushWorkerMessage.ofJson platform (cStr element) = some msg) :
      Source platform trace msg (addressee msg)
  | document {mie : MongoIOEntity} {json : Bytes} (h : Loaded trace mie json)
      (hmsg : LPushWorkerMessage.ofBson platform json = some msg) : Source platform trace msg (requester mie)

/-- A refusal is justified by a client with the same concatenation. -/
def Justified (before : List Observation) : Observation → Prop
  | .conn id (.refused msg) => .conn id (.presented msg) ∈ before ∧
      ∃ id' msg', Connected before id' msg' ∧ tripleKey (visitor msg') = tripleKey (visitor msg)
  | _ => True

/-- What a run says about its lookups. -/
structure Routed (setup : Setup) (trace : List Observation) (s : Server) : Prop where
  serving : ∀ mie, s.processor = .loading mie → Serving trace mie
  queued : ∀ id msg, .conn id (.queued msg) ∈ trace → ∃ user t, Enrolled trace id user ∧
    tripleKey (visitor user) = tripleKey t ∧ Source setup.platform trace msg t
  refused : Throughout Justified trace

section routed

variable {setup : Setup} {tasks : List Bytes} {trace shown : List Observation} {s s' : Server} {id : Nat}
  {platform : Platform} {msg : LPushWorkerMessage}

theorem Source.append {t : Bytes × Bytes × Bytes} (h : Source platform trace msg t) (shown : List Observation) :
    Source platform (trace ++ shown) msg t := by
  cases h with
  | element h hmsg => exact .element (List.mem_append_left _ h) hmsg
  | document h hmsg => exact .document (h.append _) hmsg

theorem dispatchAll_queued {index index' : Nat} {works : List Bytes}
    (h : dispatchAll platform s index works = some (s', index', shown)) (hmem : .conn id (.queued msg) ∈ shown) :
    ∃ element, .dispatched element ∈ shown ∧ LPushWorkerMessage.ofJson platform (cStr element) = some msg ∧
      s.sourceInstance msg.userId msg.appKey msg.appSecret = some id := by
  induction works generalizing s index shown with
  | nil =>
      cases h
      exact (List.not_mem_nil hmem).elim
  | cons element works ih =>
      rw [dispatchAll] at h
      split at h
      · cases h
      · rename_i lwm hlwm
        split at h
        · split at h
          · cases h
          · rename_i hrest
            cases h
            rcases List.mem_cons.mp hmem with heq | htail
            · cases heq
            · obtain ⟨element', hdispatched, hmsg, hinstance⟩ := ih hrest htail
              exact ⟨element', List.mem_cons_of_mem _ hdispatched, hmsg, hinstance⟩
        · rename_i id' hinstance
          split at h
          · cases h
          · rename_i next hpush
            split at h
            · cases h
            · rename_i hrest
              cases h
              simp only [List.mem_cons, reduceCtorEq, false_or] at hmem
              rcases hmem with heq | htail
              · cases heq
                exact ⟨element, List.mem_cons_self, hlwm, hinstance⟩
              · obtain ⟨element', hdispatched, hmsg, hinstance'⟩ := ih hrest htail
                obtain ⟨c, c', -, -, rfl⟩ := push_spec hpush
                exact ⟨element', by simp [hdispatched], hmsg, hinstance'⟩

theorem loadAll_queued {id' : Nat} {result : List Bytes} (h : loadAll platform id' s result = some (s', shown))
    (hmem : .conn id (.queued msg) ∈ shown) :
    id = id' ∧ ∃ json, .document json ∈ shown ∧ LPushWorkerMessage.ofBson platform json = some msg := by
  induction result generalizing s shown with
  | nil =>
      cases h
      exact (List.not_mem_nil hmem).elim
  | cons json result ih =>
      rw [loadAll] at h
      split at h
      · cases h
      · rename_i lpwm hlpwm
        split at h
        · cases h
        · split at h
          · cases h
          · rename_i hrest
            cases h
            simp only [List.mem_cons, reduceCtorEq, false_or] at hmem
            rcases hmem with heq | htail
            · cases heq
              exact ⟨rfl, json, List.mem_cons_self, hlpwm⟩
            · obtain ⟨hid, json', hdocument, hmessage⟩ := ih hrest htail
              exact ⟨hid, json', by simp [hdocument], hmessage⟩

theorem selectMongoHistoryLimit_queued {mie : MongoIOEntity} {result : List Bytes}
    (h : selectMongoHistoryLimit platform mie result s = some (s', shown)) (hmem : .conn id (.queued msg) ∈ shown) :
    s.sourceInstance mie.userId mie.appKey mie.secreteKey = some id ∧
      ∃ json, .document json ∈ shown ∧ LPushWorkerMessage.ofBson platform json = some msg := by
  unfold selectMongoHistoryLimit at h
  split at h
  · cases h
    exact (List.not_mem_nil hmem).elim
  · rename_i id' hinstance
    obtain ⟨rfl, hdocument⟩ := loadAll_queued h hmem
    exact ⟨hinstance, hdocument⟩

/-- Deliveries show neither a refusal nor a request. -/
theorem delivering_silent {address : LPushWorkerMessage → Bytes × Bytes × Bytes}
    (hrun : Run (· = s) (Delivering address) shown s') :
    (∀ id user, .conn id (.refused user) ∉ shown) ∧ ∀ mie, .request mie ∉ shown := by
  refine hrun.invariant
    (fun shown _ => (∀ id user, .conn id (.refused user) ∉ shown) ∧ ∀ mie, .request mie ∉ shown) ?_ ?_
  · intro _ _
    exact ⟨fun _ _ => List.not_mem_nil, fun _ => List.not_mem_nil⟩
  · intro shown s more s' h hstep
    obtain ⟨hrefused, hrequest⟩ := h
    cases hstep <;> exact ⟨fun id user hmem => hrefused id user (by simpa using hmem),
      fun mie hmem => hrequest mie (by simpa using hmem)⟩

/-- Only refusals need a justification. -/
theorem justified_of_not_refused (hshown : ∀ id user, .conn id (.refused user) ∉ shown)
    {before after : List Observation} {o : Observation} (heq : shown = before ++ o :: after) :
    Justified (trace ++ before) o := by
  cases o with
  | conn id e =>
      cases e with
      | refused user =>
          apply (hshown id user _).elim
          rw [heq]
          simp
      | _ => trivial
  | _ => trivial

/-- What a step has to bring along. -/
theorem Routed.extend (h : Routed setup trace s) (hrun : Reached setup tasks trace s)
    (hserving : ∀ mie, s'.processor = .loading mie → Serving (trace ++ shown) mie)
    (hqueued : ∀ id msg, .conn id (.queued msg) ∈ shown → ∃ t : Bytes × Bytes × Bytes,
      s.sourceInstance t.1 t.2.1 t.2.2 = some id ∧ Source setup.platform (trace ++ shown) msg t)
    (hjustified : ∀ before o after, shown = before ++ o :: after → Justified (trace ++ before) o) :
    Routed setup (trace ++ shown) s' := by
  refine ⟨hserving, fun id msg hmem => ?_, throughout_append.mpr ⟨h.refused, hjustified⟩⟩
  rcases List.mem_append.mp hmem with hpast | hnow
  · obtain ⟨user, t, henrolled, hkey, hsource⟩ := h.queued id msg hpast
    exact ⟨user, t, henrolled.append _, hkey, hsource.append _⟩
  · obtain ⟨t, hfound, hsource⟩ := hqueued id msg hnow
    obtain ⟨c, client, user, -, -, -, hconnected, hkey⟩ := hrun.found hfound
    exact ⟨user, t, hconnected.1.append _, hkey, hsource⟩

/-- A step that neither queues a message nor refuses anybody. -/
theorem Routed.quiet (h : Routed setup trace s) (hrun : Reached setup tasks trace s)
    (hserving : ∀ mie, s'.processor = .loading mie → Serving (trace ++ shown) mie)
    (hshown : ∀ id e, .conn id e ∉ shown) : Routed setup (trace ++ shown) s' :=
  h.extend hrun hserving (fun id _ hmem => (hshown id _ hmem).elim) fun _ _ _ heq =>
    justified_of_not_refused (fun id _ => hshown id _) heq

/-- A thread queues nothing, and refuses a user only where the lookup finds a client. -/
theorem Routed.thread {c c' : LPushConn} {effects : List Effect} {w : World} {thread : LPushConn.ThreadName}
    (h : Routed setup trace s) (hrun : Reached setup tasks trace s) (hfree : s.processor = .free)
    (hc : s.conns id = some c) (hstep : c.step (s.env setup) w thread = some (c', effects)) :
    Routed setup (trace ++ (performAll id
        { s with conns := Function.update s.conns id (some c'), crashed := c'.crashed } effects).2)
      (performAll id { s with conns := Function.update s.conns id (some c'), crashed := c'.crashed } effects).1 := by
  have hhistory := hrun.history hc
  have hcoherent := hrun.coherent hc hstep
  have houtcome := LPushConn.outcome_step hcoherent hstep
  apply h.extend hrun
  · intro mie hloading
    rw [(performAll_frame ..).2.2.2.2] at hloading
    cases hfree.symm.trans hloading
  · intro id' msg hmem
    exact (houtcome.not_queued msg (mem_of_conn_mem_performAll _ _ hmem).2).elim
  · intro before o after heq
    cases o with
    | conn id' e =>
        cases e with
        | refused user =>
            have hmem : .conn id' (.refused user) ∈ before ++ .conn id' (.refused user) :: after := by simp
            rw [← heq] at hmem
            obtain ⟨rfl, hrefused⟩ := mem_of_conn_mem_performAll _ _ hmem
            obtain ⟨hmsg, hregistered, hkept⟩ := houtcome.refusal hrefused
            obtain ⟨hpresented, -⟩ := (LPushConn.history_vetted hhistory).message user hmsg
            obtain ⟨id'', hfound⟩ := Option.isSome_iff_exists.mp hregistered
            obtain ⟨c'', client, user', -, -, -, hconnected, hkey⟩ := hrun.found (t := visitor user) hfound
            refine ⟨List.mem_append_left _ (mem_view.mp hpresented), id'', user',
              ⟨hconnected.1.append _, fun cstfd hdeleted => ?_⟩, hkey⟩
            rcases List.mem_append.mp hdeleted with hpast | hnow
            · exact hconnected.2 cstfd hpast
            · have hshown : .conn id'' (.deleteClient cstfd) ∈ before ++ .conn id' (.refused user) :: after :=
                List.mem_append_left _ hnow
              rw [← heq] at hshown
              exact hkept cstfd (mem_of_conn_mem_performAll _ _ hshown).2
        | _ => trivial
    | _ => trivial

theorem Reached.routed (hrun : Reached setup tasks trace s) : Routed setup trace s := by
  induction hrun with
  | start hinit =>
      rw [hinit]
      refine ⟨fun mie hloading => ?_, fun _ _ hmem => (List.not_mem_nil hmem).elim, throughout_nil⟩
      cases hloading
  | next hbefore hstep ih =>
      cases hstep with
      | thread id thread w hrunning hfree haddress hthread =>
          obtain ⟨c, c', effects, hc, hstep, rfl⟩ := threadStep_spec hthread
          exact ih.thread hbefore hfree hc hstep
      | accept stfd beyond fcntl created hrunning hfree hfd =>
          rcases acceptClient_spec setup.conf stfd beyond fcntl created _ with hsame | ⟨c, -, haccepted⟩
          · rw [hsame, List.append_nil]
            exact ih
          · rw [haccepted]
            refine ih.quiet hbefore (fun mie hloading => ?_) (by simp)
            cases hfree.symm.trans hloading
      | rpush element hrunning =>
          exact ih.quiet hbefore (fun mie hloading => (ih.serving mie hloading).append (by simp)) (by simp)
      | lrange hrunning hfree hcycle =>
          obtain ⟨⟨s', index, shown⟩, hdispatch, rfl⟩ := Option.map_eq_some_iff.mp hcycle
          obtain ⟨hrefused, -⟩ := delivering_silent (dispatchAll_run hdispatch)
          refine ih.extend hbefore (fun mie hloading => ?_) (fun id msg hmem => ?_) fun _ _ _ heq =>
            justified_of_not_refused hrefused heq
          · cases hloading
          · obtain ⟨element, hdispatched, hmsg, hfound⟩ := dispatchAll_queued hdispatch hmem
            exact ⟨addressee msg, hfound, .element (List.mem_append_right _ hdispatched) hmsg⟩
      | ltrim index hrunning hcycling =>
          refine ih.quiet hbefore (fun mie hloading => ?_) (by simp [ltrim])
          cases hloading
      | request address mie rest hrunning hfree hhistory =>
          refine ih.quiet hbefore (fun mie' hloading => ?_) (by simp)
          cases hloading
          exact ⟨_, [], rfl, fun _ => List.not_mem_nil⟩
      | page mie result hrunning hloading hpage =>
          have hdelivering := selectMongoHistoryLimit_run hpage
          obtain ⟨hrefused, hrequest⟩ := delivering_silent hdelivering
          refine ih.extend hbefore (fun mie' hloading' => ?_) (fun id msg hmem => ?_) fun _ _ _ heq =>
            justified_of_not_refused hrefused heq
          · rw [delivering_frame hdelivering] at hloading'
            exact (ih.serving mie' hloading').append hrequest
          · obtain ⟨hfound, json, hdocument, hmessage⟩ := selectMongoHistoryLimit_queued hpage hmem
            exact ⟨requester mie, hfound, .document ((ih.serving mie hloading).loaded hrequest hdocument) hmessage⟩
      | loaded mie hrunning hloading =>
          refine ih.quiet hbefore (fun mie' hloading => ?_) (by simp)
          cases hloading

end routed

/-! ### Isolation -/

/-- Nobody is taken for somebody else: in a lookup of one of these triples, and in anything the run
has shown. -/
structure RoutingIsolation (triples : Set (Bytes × Bytes × Bytes)) (trace : List Observation) (s : Server) :
    Prop where
  lookup : ∀ userId appId screteKey id, (userId, appId, screteKey) ∈ triples →
    s.sourceInstance userId appId screteKey = some id → ∃ c client, s.conns id = some c ∧
      c.client = some client ∧ holder client = (userId, appId, screteKey)
  queued : ∀ id msg, .conn id (.queued msg) ∈ trace →
    ∃ user, Enrolled trace id user ∧ visitor user = addressee msg
  refused : ∀ before id msg after, trace = before ++ .conn id (.refused msg) :: after →
    ∃ id' user, Connected before id' user ∧ visitor user = visitor msg

section isolation

variable {setup : Setup} {tasks : List Bytes} {trace : List Observation} {s : Server}
  {triples : Set (Bytes × Bytes × Bytes)}

/-- **Routing isolation.** Where no two of the triples in use have the same concatenation, and every
document the loader is handed names the triple it was requested for, nobody is taken for somebody
else. -/
theorem routing_isolation (hrun : Reached setup tasks trace s) (hdistinct : Set.InjOn tripleKey triples)
    (hnamed : ∀ t, Named setup.platform trace t → t ∈ triples)
    (hdocuments : ∀ mie json lpwm, Loaded trace mie json →
      LPushWorkerMessage.ofBson setup.platform json = some lpwm →
      addressee lpwm = requester mie) : RoutingIsolation triples trace s := by
  have hrouted := hrun.routed
  refine ⟨fun userId appId screteKey id hmem hfound => ?_, fun id msg hmem => ?_,
    fun before id msg after heq => ?_⟩
  · obtain ⟨c, client, user, hc, hclient, hholder, hconnected, hkey⟩ :=
      hrun.found (t := (userId, appId, screteKey)) hfound
    exact ⟨c, client, hc, hclient, hholder.trans (hdistinct (hnamed _ hconnected.1.named) hmem hkey)⟩
  · obtain ⟨user, t, henrolled, hkey, hsource⟩ := hrouted.queued id msg hmem
    have huser := hnamed _ henrolled.named
    refine ⟨user, henrolled, ?_⟩
    cases hsource with
    | element hdispatched hmsg => exact hdistinct huser (hnamed _ (.dispatched hdispatched hmsg)) hkey
    | document hloaded hmessage =>
        rw [hdocuments _ _ _ hloaded hmessage]
        exact hdistinct huser (hnamed _ hloaded.named) hkey
  · obtain ⟨hpresented, id', user, hconnected, hkey⟩ := hrouted.refused before _ after heq
    have hbefore : ∀ t, Named setup.platform before t → t ∈ triples := by
      intro t ht
      apply hnamed
      rw [heq]
      exact ht.append _
    exact ⟨id', user, hconnected, hdistinct (hbefore _ hconnected.1.named) (hbefore _ (.presented hpresented)) hkey⟩

/-- The triple that an observation names. -/
def Observation.named? (platform : Platform) : Observation → Option (Bytes × Bytes × Bytes)
  | .conn _ (.presented msg) => some (visitor msg)
  | .dispatched element => (LPushWorkerMessage.ofJson platform (cStr element)).map addressee
  | .request mie => some (requester mie)
  | _ => none

theorem Named.mem {platform : Platform} {t : Bytes × Bytes × Bytes} (h : Named platform trace t) :
    t ∈ trace.filterMap (Observation.named? platform) := by
  rw [List.mem_filterMap]
  cases h with
  | presented h => exact ⟨_, h, rfl⟩
  | dispatched h hlwm => exact ⟨_, h, by rw [Observation.named?, hlwm, Option.map_some]⟩
  | request h => exact ⟨_, h, rfl⟩

/-- The triple of a request or of a document. -/
def Observation.loads? (platform : Platform) : Observation → Option (Bytes × Bytes × Bytes)
  | .request mie => some (requester mie)
  | .document json => (LPushWorkerMessage.ofBson platform json).map addressee
  | _ => none

/-- A system of two users, on which jsoncpp knows the task and libbson the one in the history. -/
def bothSetup : Setup where
  conf := bareConfig
  platform :=
    { visitorPlatform [userSeven, userEight] with
      reader := fun source =>
        if source = taskJson then some (.object taskMembers)
        else (visitorPlatform [userSeven, userEight]).reader source
      newFromJson :=
        (LPushMongoIOThread.documentPlatform LPushMongoIOThread.taskPrinted LPushMongoIOThread.taskParsed).newFromJson }
  hashes := knownHashes

/-- Users 7 and 8 come in, and user 7 once more. User 7 gets a task and one from its history. -/
def servesBoth : List Move :=
  enters 0 7 5 (opening userSeven) ++ activates 0 5 1 ++ enters 1 8 6 (opening userEight) ++ activates 1 6 1 ++
    enters 2 9 4 (opening userSeven) ++
      [.rpush taskJson, .lrange, .ltrim, .request, .page [LPushMongoIOThread.taskPrinted], .loaded]

def tripleSeven : Bytes × Bytes × Bytes := (text "7", text "app", text "key")

def tripleEight : Bytes × Bytes × Bytes := (text "8", text "app", text "key")

/-- Two users are connected, a third login was refused, and what was queued is all for user 7. -/
theorem routing_isolation_both : ∃ trace s, Reached bothSetup [] trace s ∧
    s.sourceInstance tripleSeven.1 tripleSeven.2.1 tripleSeven.2.2 = some 0 ∧
    s.sourceInstance tripleEight.1 tripleEight.2.1 tripleEight.2.2 = some 1 ∧
    (pushed (view 0 trace)).map addressee = [tripleSeven, tripleSeven] ∧ pushed (view 1 trace) = [] ∧
    RoutingIsolation {tripleSeven, tripleEight} trace s := by
  obtain ⟨trace, s, hrun, hwanted⟩ := reached_of_play bothSetup [] servesBoth
    (fun next => next.1.sourceInstance tripleSeven.1 tripleSeven.2.1 tripleSeven.2.2 = some 0 ∧
      next.1.sourceInstance tripleEight.1 tripleEight.2.1 tripleEight.2.2 = some 1 ∧
      (pushed (view 0 next.2)).map addressee = [tripleSeven, tripleSeven] ∧ pushed (view 1 next.2) = [] ∧
      (∀ t ∈ next.2.filterMap (Observation.named? bothSetup.platform), t = tripleSeven ∨ t = tripleEight) ∧
      ∀ t ∈ next.2.filterMap (Observation.loads? bothSetup.platform), t = tripleSeven) (by decide +kernel)
  obtain ⟨hseven, height, hpushed, hnothing, hnamed, hloads⟩ := of_decide_eq_true hwanted
  have hdistinct : Set.InjOn tripleKey {tripleSeven, tripleEight} := by
    rintro t (rfl | rfl) t' (rfl | rfl) hkey
    · rfl
    · exact absurd hkey (by decide)
    · exact absurd hkey (by decide)
    · rfl
  refine ⟨trace, s, hrun, hseven, height, hpushed, hnothing,
    routing_isolation hrun hdistinct (fun t ht => hnamed t ht.mem) fun mie json lpwm hloaded hlpwm => ?_⟩
  have hrequest := hloads _ (List.mem_filterMap.mpr ⟨_, hloaded.request, rfl⟩)
  have hdocument := hloads (addressee lpwm)
    (List.mem_filterMap.mpr ⟨_, hloaded.document, by rw [Observation.loads?, hlpwm, Option.map_some]⟩)
  exact hdocument.trans hrequest.symm

/-- A lookup of another triple with the concatenation of a connected client finds that client. -/
theorem not_routing_isolation {id : Nat} {c : LPushConn} {client : LPushClient} {t : Bytes × Bytes × Bytes}
    (hrun : Reached setup tasks trace s) (hc : s.conns id = some c) (hclient : c.client = some client)
    (ht : t ∈ triples) (hkey : tripleKey (holder client) = tripleKey t) (hne : holder client ≠ t) :
    ¬ RoutingIsolation triples trace s := by
  intro h
  have hfound : s.sourceInstance t.1 t.2.1 t.2.2 = some id :=
    (hrun.clients_iff _ id).mpr ⟨c, client, hc, hclient, hkey⟩
  obtain ⟨c', client', hc', hclient', hholder⟩ := h.lookup _ _ _ id ht hfound
  obtain rfl := Option.some.inj (hc.symm.trans hc')
  obtain rfl := Option.some.inj (hclient.symm.trans hclient')
  exact hne hholder

/-- User 1 of application "23", whose secret is "k". -/
def firstJson : Bytes :=
  text ("\x7b\"userId\":\"1\",\"appId\":\"23\",\"screteKey\":\"k\"," ++
    "\"md5Data\":\"705f09f5246f935efd5f1f6ce304bc1f\"\x7d")

def firstMembers : List (Bytes × Bytes) :=
  [(text "userId", text "1"), (text "appId", text "23"), (text "screteKey", text "k"),
    (text "md5Data", text "705f09f5246f935efd5f1f6ce304bc1f")]

def firstDigest : List.Vector UInt8 16 :=
  ⟨[0x70, 0x5f, 0x09, 0xf5, 0x24, 0x6f, 0x93, 0x5e, 0xfd, 0x5f, 0x1f, 0x6c, 0xe3, 0x04, 0xbc, 0x1f], rfl⟩

def firstSetup : Setup := knownSetup firstJson firstMembers (text "123k") firstDigest

theorem firstSetup_handshake : (LPushProtocol.handshake firstSetup.platform (fun _ => 0)
    (handshakeChunk firstJson (by decide))).result = some (errorSuccess, .setParams firstMembers) := by
  decide +kernel

/-- User 12 of application "3" is taken for user 1 of application "23". -/
theorem not_routing_isolation_first : ∃ trace s, Reached firstSetup [] trace s ∧
    ¬ RoutingIsolation Set.univ trace s := by
  obtain ⟨trace, s, c, hrun, honly, hclient⟩ := reached_login firstSetup [] 7
    (handshakeChunk firstJson (by decide)) connectionChunk (fun _ => 0) (by decide) (by decide) (by decide)
    firstSetup_handshake rfl rfl
  exact ⟨trace, s, hrun, not_routing_isolation (t := (text "12", text "3", text "k")) hrun honly.conn hclient
    (Set.mem_univ _) rfl (by decide)⟩

end isolation

end Server

end LinkedonPush

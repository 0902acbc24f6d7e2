import LinkedonPush.App.Lifecycle
import LinkedonPush.App.Registry

/-!
# The stages of a connection

In every phase the record of a connection has one shape, and what it has asked of the history loader
is known from its record.
-/

namespace LinkedonPush

open Theory

/-- The record of a connection that was just accepted. -/
def Record.fresh : Record := ⟨none, none, none, [], [], none, false, true⟩

/-- The record of a connection that has created its client. -/
def Record.enrolled (conf : LPushConfig) (stfd : Nat) (msg : LPushHandshakeMessage) : Record :=
  { Record.fresh.registered conf msg with client := some (.create stfd msg) }

namespace LPushConn

/-- The record that goes with a phase. -/
inductive Stage (conf : LPushConfig) (stfd : Nat) : Phase → Record → Prop where
  | opening : Stage conf stfd .opening .fresh
  | dismissed : Stage conf stfd .refusing .fresh
  | refused (msg : LPushHandshakeMessage) : Stage conf stfd .refusing (Record.fresh.registered conf msg)
  | connecting (msg : LPushHandshakeMessage) : Stage conf stfd .connecting (.enrolled conf stfd msg)
  | running (msg : LPushHandshakeMessage) (address : Nat) (dispose : Bool) :
      Stage conf stfd .running
        { Record.enrolled conf stfd msg with mie := some address, dispose := dispose }
  | leaving (msg : LPushHandshakeMessage) (address : Nat) (dispose : Bool) :
      Stage conf stfd .leaving
        { Record.enrolled conf stfd msg with mie := some address, dispose := dispose }
  | closed {phase : Phase} {r : Record} (hbefore : Stage conf stfd phase r) (hopen : phase ≠ .closed) :
      Stage conf stfd .closed r.released

/-- Effects on the queue of the history loader. -/
def queueing : Effect → Bool
  | .pushHistory _ _ => true
  | .findPop _ => true
  | _ => false

def requests (trace : List Effect) : List Effect := trace.filter queueing

/-- What a connection has asked of the history loader. -/
inductive Requested (trace : List Effect) (c : LPushConn) : Prop where
  | unasked (hmie : c.mie = none) (htrace : requests trace = [])
  | queued (address : Nat) (mie : MongoIOEntity) (hmie : c.mie = some address)
      (hphase : c.point.phase = .running) (htrace : requests trace = [.pushHistory address mie])
  | dropped (address : Nat) (mie : MongoIOEntity) (hmie : c.mie = some address)
      (hphase : c.point.phase = .leaving ∨ c.point.phase = .closed)
      (htrace : requests trace = [.pushHistory address mie, .findPop address])

/-- The commands among the effects. -/
def Effect.command? : Effect → Option RedisCommand
  | .redis command => some command
  | _ => none

def commands (trace : List Effect) : List RedisCommand := trace.filterMap Effect.command?

/-- What a connection without helper threads has sent to Redis. -/
inductive Sent (conf : LPushConfig) (trace : List Effect) (c : LPushConn) : Prop where
  | silent (hphase : c.point.phase = .opening ∨ c.point.phase = .refusing ∨ c.point.phase = .closed)
      (hcommands : commands trace = [])
  | announced (msg : LPushHandshakeMessage) (utime : Int)
      (hphase : c.point.phase = .refusing ∨ c.point.phase = .connecting ∨ c.point.phase = .closed)
      (hkey : c.clientKey = msg.appId ++ msg.userId)
      (hcommands : commands trace = announcement conf utime msg)
  | active (hmie : c.mie.isSome = true)

/-- A connection is removed from the table as soon as it is left. -/
def left (phase : Phase) : Nat :=
  match phase with
  | .leaving => 1
  | .closed => 1
  | _ => 0

def removal : Effect → Bool
  | .removed => true
  | _ => false

structure Filed (conf : LPushConfig) (trace : List Effect) (c : LPushConn) : Prop where
  stage : Stage conf c.stfd c.point.phase c.record
  requested : Requested trace c
  sent : Sent conf trace c
  removed : trace.countP removal = left c.point.phase

section filed

variable {conf : LPushConfig} {stfd : Nat} {phase : Phase} {r : Record} {trace effects : List Effect}
  {c c' : LPushConn} {env : Env} {w : World}

theorem requests_append (trace effects : List Effect) :
    requests (trace ++ effects) = requests trace ++ requests effects := List.filter_append ..

theorem requests_eq_outward (effects : List Effect) : requests effects = requests (outward effects) := by
  rw [requests, requests, outward, List.filter_filter]
  apply List.filter_congr
  intro e _
  cases e <;> rfl

/-- Commands are no requests. -/
theorem requests_of_commands {effects : List Effect} {sent : List RedisCommand}
    (h : outward effects = sent.map .redis) : requests effects = [] := by
  rw [requests_eq_outward, h, requests, List.filter_eq_nil_iff]
  intro e he
  obtain ⟨command, -, rfl⟩ := List.mem_map.mp he
  exact Bool.false_ne_true

theorem requests_of_outward (h : outward effects = []) : requests effects = [] := by
  rw [requests_eq_outward, h]
  rfl

theorem Stage.protocol (h : Stage conf stfd phase r) (hopen : phase ≠ .closed) : r.protocol = true := by
  cases h with
  | closed => exact (hopen rfl).elim
  | _ => rfl

/-- Before the helper threads exist, nothing was disposed and nothing is queued. -/
theorem Stage.early (h : Stage conf stfd phase r)
    (hphase : phase = .opening ∨ phase = .refusing ∨ phase = .connecting) :
    r.dispose = false ∧ r.mie = none := by
  cases h with
  | running | leaving | closed => rcases hphase with hphase | hphase | hphase <;> cases hphase
  | _ => exact ⟨rfl, rfl⟩

/-- While there are helper threads, a request was queued. -/
theorem Stage.late (h : Stage conf stfd phase r) (hphase : phase = .running ∨ phase = .leaving) :
    r.mie.isSome = true := by
  cases h with
  | running | leaving => rfl
  | _ => rcases hphase with hphase | hphase <;> cases hphase

theorem phase_running_iff {point : CyclePoint} :
    (point.phase = .running ∨ point = .joinRecv) ↔ Running point := by
  cases point <;> simp [CyclePoint.phase, Running]

theorem Coherent.orderly {d : Dialogue} (hcoherent : Coherent d c) (h : Stage conf stfd c.point.phase c.record) :
    Orderly c where
  protocol := h.protocol
  dispose := fun hphase => (h.early (.inr (.inr hphase))).1
  threads := by
    intro hphase
    have hrunning : Running c.point := phase_running_iff.mp (.inl hphase)
    cases hcoherent with
    | running t u client _ hactive => simp [hactive.trd, hactive.trd2]
    | opening hpoint => rcases hpoint with hpoint | hpoint <;> (rw [hpoint] at hrunning; exact hrunning.elim)
    | handshake _ hpoint | refusing _ _ hpoint | accepting _ hpoint | createConnection _ hpoint
    | connecting _ _ hpoint | joinConsum _ _ hpoint | closed hpoint =>
        rw [hpoint] at hrunning
        exact hrunning.elim

/-- Only an active connection has helper threads to join. -/
theorem Coherent.no_threads {d : Dialogue} (h : Coherent d c) (hrunning : c.point.phase ≠ .running)
    (hleaving : c.point.phase ≠ .leaving) : c.trd = none ∧ c.trd2 = none := by
  cases h with
  | opening _ halone | handshake _ _ halone | refusing _ _ _ halone | accepting _ _ halone
  | createConnection _ _ halone | closed _ halone => exact ⟨halone.trd, halone.trd2⟩
  | connecting _ _ _ htrd htrd2 => exact ⟨htrd, htrd2⟩
  | running _ _ _ hpoint =>
      rcases phase_running_iff.mpr hpoint with hphase | hpoint
      · exact (hrunning hphase).elim
      · exact (hleaving (by rw [hpoint]; rfl)).elim
  | joinConsum _ _ hpoint => exact (hleaving (by rw [hpoint]; rfl)).elim

/-- The destructor ends every stage but the last. -/
theorem Stage.ends (h : Stage conf stfd c.point.phase c.record) (hopen : c.point.phase ≠ .closed)
    (hends : Ends c c')
    (hactive : c'.point.phase = .leaving → c.point.phase = .running ∨ c.point.phase = .leaving) :
    Stage conf stfd c'.point.phase c'.record := by
  rcases hends with ⟨hphase, hrecord⟩ | ⟨hphase, hrecord⟩
  · rw [hphase, hrecord]
    rcases hactive hphase with hrunning | hleaving
    · generalize c.record = r at h
      rw [hrunning] at h
      cases h with
      | running msg address dispose => exact .leaving msg address dispose
    · rwa [hleaving] at h
  · rw [hphase, hrecord]
    exact .closed h hopen

theorem Stage.asking {p : Progress} (h : Stage conf stfd c.point.phase c.record) (hasking : Asking c p)
    (hactive : c.point.phase = .running ∨ c.point.phase = .leaving) :
    Stage conf stfd p.1.point.phase p.1.record := by
  rw [hasking.phase, hasking.record]
  generalize c.record = r at h
  rcases hactive with hphase | hphase
  · rw [hphase] at h ⊢
    cases h with
    | running msg address dispose => exact .running msg address p.1.dispose
  · rw [hphase] at h ⊢
    cases h with
    | leaving msg address dispose => exact .leaving msg address p.1.dispose

theorem Coherent.active_of_threads {d : Dialogue} (h : Coherent d c)
    (hthreads : c.trd.isSome = true ∨ c.trd2.isSome = true) :
    c.point.phase = .running ∨ c.point.phase = .leaving := by
  by_contra hphase
  obtain ⟨htrd, htrd2⟩ := h.no_threads (not_or.mp hphase).1 (not_or.mp hphase).2
  rw [htrd, htrd2] at hthreads
  rcases hthreads with hthread | hthread <;> cases hthread

/-- One step keeps the record in shape. -/
theorem Stage.turn {d : Dialogue} {p : Progress} (hcoherent : Coherent d c) (hconf : env.conf = conf)
    (hstfd : p.1.stfd = c.stfd) (h : Stage conf c.stfd c.point.phase c.record) (hturn : Turn env w c p) :
    Stage conf p.1.stfd p.1.point.phase p.1.record := by
  rw [hstfd]
  cases hturn with
  | stays hrecord _ hphase =>
      rw [hrecord]
      rcases hphase with hphase | ⟨hopening, hrefusing⟩
      · rwa [hphase]
      · rw [hopening] at h
        rw [hrefusing]
        generalize c.record = r at h
        cases h with
        | opening => exact .dismissed
  | refused msg hopening _ hrecord _ hrefusing =>
      rw [hopening] at h
      rw [hrefusing, hrecord, hconf]
      generalize c.record = r at h
      cases h with
      | opening => exact .refused msg
  | enrolled msg hopening _ hrecord _ hconnecting =>
      rw [hopening] at h
      rw [hconnecting, hrecord, hconf]
      generalize c.record = r at h
      cases h with
      | opening => exact .connecting msg
  | connects msg hconnecting hrecord _ hrunning =>
      rw [hconnecting] at h
      rw [hrunning, hrecord]
      generalize c.record = r at h
      cases h with
      | connecting msg => exact .running msg w.address false
  | finishes hopen hfinishes =>
      refine h.ends hopen.2 hfinishes.ends fun hleaving => ?_
      by_contra hactive
      obtain ⟨hrunning, hleaving'⟩ := not_or.mp hactive
      obtain ⟨htrd, htrd2⟩ := hcoherent.no_threads hrunning hleaving'
      cases hleaving.symm.trans (hfinishes.closes htrd htrd2)
  | ends hphase _ hends => exact h.ends (by simp [hphase]) hends fun _ => .inr hphase
  | asks hthreads hasking => exact h.asking hasking (hcoherent.active_of_threads hthreads)

/-- One step keeps track of the request. -/
theorem Requested.turn {p : Progress} (h : Requested trace c) (hstage : Stage conf stfd c.point.phase c.record)
    (hturn : Turn env w c p) : Requested (trace ++ p.2) p.1 := by
  have hquiet : requests p.2 = [] → requests (trace ++ p.2) = requests trace := by
    intro hnone
    rw [requests_append, hnone, List.append_nil]
  -- a step that says nothing about the queue
  have hkeep : requests p.2 = [] → p.1.mie = c.mie →
      (c.point.phase = .running → p.1.point.phase = .running) →
      (c.point.phase = .leaving ∨ c.point.phase = .closed →
        p.1.point.phase = .leaving ∨ p.1.point.phase = .closed) → Requested (trace ++ p.2) p.1 := by
    intro hnone hmie hrunning hleaving
    cases h with
    | unasked hmie' htrace => exact .unasked (hmie.trans hmie') ((hquiet hnone).trans htrace)
    | queued address mie hmie' hphase htrace =>
        exact .queued address mie (hmie.trans hmie') (hrunning hphase) ((hquiet hnone).trans htrace)
    | dropped address mie hmie' hphase htrace =>
        exact .dropped address mie (hmie.trans hmie') (hleaving hphase) ((hquiet hnone).trans htrace)
  -- nor does a step of the opening
  have hopen : c.point.phase = .opening → requests p.2 = [] → p.1.mie = c.mie →
      Requested (trace ++ p.2) p.1 := by
    intro hopening hnone hmie
    refine hkeep hnone hmie (fun hrunning => ?_) fun hleaving => ?_
    · cases hopening.symm.trans hrunning
    · rw [hopening] at hleaving
      rcases hleaving with hleaving | hleaving <;> cases hleaving
  cases hturn with
  | stays hrecord houtward hphase =>
      have hmie : p.1.mie = c.mie := congrArg Record.mie hrecord
      rcases hphase with hphase | ⟨hopening, -⟩
      · exact hkeep (requests_of_outward houtward) hmie hphase.trans fun hleaving => by rwa [hphase]
      · exact hopen hopening (requests_of_outward houtward) hmie
  | refused msg hopening _ hrecord houtward hrefusing =>
      exact hopen hopening (requests_of_commands houtward) (congrArg Record.mie hrecord :)
  | enrolled msg hopening _ hrecord houtward hconnecting =>
      exact hopen hopening (requests_of_commands houtward) (congrArg Record.mie hrecord :)
  | connects msg hconnecting hrecord houtward hrunning =>
      have hmie : p.1.mie = some w.address := congrArg Record.mie hrecord
      have hnone : c.mie = none := (hstage.early (.inr (.inr hconnecting))).2
      refine .queued w.address (historyRequest env.conf msg) hmie hrunning ?_
      cases h with
      | unasked _ htrace =>
          rw [requests_append, htrace, requests_eq_outward, houtward]
          rfl
      | queued _ _ hmie' => cases hnone.symm.trans hmie'
      | dropped _ _ hmie' => cases hnone.symm.trans hmie'
  | finishes hopen hfinishes =>
      obtain ⟨houtward, hends, -⟩ := hfinishes
      have hmie : p.1.mie = c.mie := hends.kept.1
      cases h with
      | unasked hmie' htrace =>
          refine .unasked (hmie.trans hmie') ?_
          rw [requests_append, htrace, requests_eq_outward, houtward, hmie']
          rfl
      | queued address mie hmie' _ htrace =>
          refine .dropped address mie (hmie.trans hmie') hends.phase ?_
          rw [requests_append, htrace, requests_eq_outward, houtward, hmie']
          rfl
      | dropped _ _ _ hphase' =>
          rcases hphase' with hphase' | hphase'
          · exact (hopen.1 hphase').elim
          · exact (hopen.2 hphase').elim
  | ends hphase houtward hends =>
      refine hkeep (requests_of_outward houtward) hends.kept.1 (fun hrunning => ?_) fun _ => hends.phase
      cases hphase.symm.trans hrunning
  | asks _ hasking =>
      obtain ⟨⟨commands, houtward, -⟩, hphase, hrecord, -⟩ := hasking
      have hmie : p.1.mie = c.mie := (congrArg Record.mie hrecord :)
      exact hkeep (requests_of_commands houtward) hmie hphase.trans fun hleaving => by rwa [hphase]

theorem commands_append (trace effects : List Effect) :
    commands (trace ++ effects) = commands trace ++ commands effects := List.filterMap_append

theorem commands_eq_outward (effects : List Effect) : commands effects = commands (outward effects) := by
  rw [commands, commands, outward, List.filterMap_filter]
  apply List.filterMap_congr
  intro e _
  cases e <;> rfl

theorem commands_of_outward {effects : List Effect} {sent : List RedisCommand}
    (h : outward effects = sent.map .redis) : commands effects = sent := by
  rw [commands_eq_outward, h, commands, List.filterMap_map]
  exact List.filterMap_some

/-- Before its announcement a connection sends nothing. -/
theorem Sent.silent_of_opening (h : Sent conf trace c) (hstage : Stage conf stfd c.point.phase c.record)
    (hopening : c.point.phase = .opening) : commands trace = [] := by
  cases h with
  | silent _ hcommands => exact hcommands
  | announced _ _ hphase =>
      rw [hopening] at hphase
      rcases hphase with hphase | hphase | hphase <;> cases hphase
  | active hmie =>
      have hnone : c.mie = none := (hstage.early (.inl hopening)).2
      rw [hnone] at hmie
      cases hmie

/-- One step sends what its turn says. -/
theorem Sent.turn {d : Dialogue} {p : Progress} (h : Sent conf trace c) (hcoherent : Coherent d c)
    (hstage : Stage conf c.stfd c.point.phase c.record)
    (hstage' : Stage conf p.1.stfd p.1.point.phase p.1.record) (hconf : env.conf = conf)
    (hturn : Turn env w c p) : Sent conf (trace ++ p.2) p.1 := by
  have hquiet : commands p.2 = [] → commands (trace ++ p.2) = commands trace := by
    intro hnone
    rw [commands_append, hnone, List.append_nil]
  cases hturn with
  | stays hrecord houtward hphase =>
      have hnone : commands p.2 = [] := by
        rw [commands_eq_outward, houtward]
        rfl
      have hmie : p.1.mie = c.mie := congrArg Record.mie hrecord
      have hkey : p.1.clientKey = c.clientKey := congrArg Record.clientKey hrecord
      cases h with
      | silent hbefore hcommands =>
          refine .silent ?_ ((hquiet hnone).trans hcommands)
          rcases hphase with hphase | ⟨-, hrefusing⟩
          · rwa [hphase]
          · exact .inr (.inl hrefusing)
      | announced msg utime hbefore hkey' hcommands =>
          refine .announced msg utime ?_ (hkey.trans hkey') ((hquiet hnone).trans hcommands)
          rcases hphase with hphase | ⟨-, hrefusing⟩
          · rwa [hphase]
          · exact .inl hrefusing
      | active hsome =>
          rw [← hmie] at hsome
          exact .active hsome
  | refused msg hopening _ hrecord houtward hrefusing =>
      have hkey : p.1.clientKey = msg.appId ++ msg.userId := congrArg Record.clientKey hrecord
      refine .announced msg w.utime (.inl hrefusing) hkey ?_
      rw [commands_append, h.silent_of_opening hstage hopening, List.nil_append, commands_of_outward houtward, hconf]
  | enrolled msg hopening _ hrecord houtward hconnecting =>
      have hkey : p.1.clientKey = msg.appId ++ msg.userId := congrArg Record.clientKey hrecord
      refine .announced msg w.utime (.inr (.inl hconnecting)) hkey ?_
      rw [commands_append, h.silent_of_opening hstage hopening, List.nil_append, commands_of_outward houtward, hconf]
  | connects msg _ hrecord =>
      have hmie : p.1.mie = some w.address := congrArg Record.mie hrecord
      exact .active (by rw [hmie]; rfl)
  | finishes hopen hfinishes =>
      obtain ⟨houtward, hends, hcloses⟩ := hfinishes
      have hnone : commands p.2 = [] := by
        rw [commands_eq_outward, houtward]
        cases c.mie <;> rfl
      rcases hends.phase with hleaving | hclosed
      · exact .active (hstage'.late (.inr hleaving))
      · cases h with
        | silent _ hcommands => exact .silent (.inr (.inr hclosed)) ((hquiet hnone).trans hcommands)
        | announced msg utime _ hkey hcommands =>
            exact .announced msg utime (.inr (.inr hclosed)) (hends.kept.2.trans hkey)
              ((hquiet hnone).trans hcommands)
        | active hmie =>
            rw [← hends.kept.1] at hmie
            exact .active hmie
  | ends hphase _ hends =>
      have hmie : c.mie.isSome = true := hstage.late (.inr hphase)
      rw [← hends.kept.1] at hmie
      exact .active hmie
  | asks hthreads hasking =>
      have hactive := hcoherent.active_of_threads hthreads
      rw [← hasking.phase] at hactive
      exact .active (hstage'.late hactive)

/-- Effects that stay inside remove nothing. -/
theorem removal_eq_outward (effects : List Effect) :
    effects.countP removal = (outward effects).countP removal := by
  rw [outward, List.countP_filter]
  apply List.countP_congr
  intro e _
  cases e <;> simp [removal, Effect.outward]

/-- One step leaves the table as its turn says. -/
theorem removed_turn {p : Progress} (h : trace.countP removal = left c.point.phase) (hturn : Turn env w c p) :
    (trace ++ p.2).countP removal = left p.1.point.phase := by
  have hcount := removal_eq_outward p.2
  have hredis : ∀ sent : List RedisCommand, (sent.map Effect.redis).countP removal = 0 := by
    intro sent
    rw [List.countP_eq_zero]
    intro e he
    obtain ⟨command, -, rfl⟩ := List.mem_map.mp he
    exact Bool.false_ne_true
  rw [List.countP_append, h, hcount]
  cases hturn with
  | stays _ houtward hphase =>
      rw [houtward]
      rcases hphase with hphase | ⟨hopening, hrefusing⟩
      · rw [hphase]
        rfl
      · rw [hopening, hrefusing]
        rfl
  | refused _ hopening _ _ houtward hrefusing =>
      rw [houtward, hredis, hopening, hrefusing]
      rfl
  | enrolled _ hopening _ _ houtward hconnecting =>
      rw [houtward, hredis, hopening, hconnecting]
      rfl
  | connects _ hconnecting _ houtward hrunning =>
      rw [houtward, hconnecting, hrunning]
      rfl
  | finishes hopen hfinishes =>
      have hone : (outward p.2).countP removal = 1 := by
        rw [hfinishes.outward_eq]
        cases c.mie <;> rfl
      have hbefore : left c.point.phase = 0 := by
        cases hphase : c.point.phase with
        | leaving => exact (hopen.1 hphase).elim
        | closed => exact (hopen.2 hphase).elim
        | _ => rfl
      rw [hone, hbefore]
      rcases hfinishes.ends with ⟨hphase, -⟩ | ⟨hphase, -⟩ <;> rw [hphase] <;> rfl
  | ends hphase houtward hends =>
      rw [houtward, hphase]
      rcases hends with ⟨hphase', -⟩ | ⟨hphase', -⟩ <;> rw [hphase'] <;> rfl
  | asks _ hasking =>
      obtain ⟨sent, houtward, -⟩ := hasking.commands
      rw [houtward, hredis, hasking.phase, Nat.add_zero]

theorem Outcome.stfd_eq {p : Progress} (h : Outcome env c p) : p.1.stfd = c.stfd := by
  cases h with
  | kept _ huser => exact huser.stfd
  | presented _ _ hstfd => exact hstfd
  | refused _ _ huser => exact huser.stfd
  | enrolled _ _ hstfd => exact hstfd
  | released _ _ hstfd => exact hstfd

/-- A push from outside changes the queue of the client only. -/
theorem Filed.queued {msg : LPushWorkerMessage} (h : Filed conf trace c) (hpush : c.push msg = some c') :
    Filed conf (trace ++ [.queued msg]) c' := by
  obtain ⟨client, hclient, rfl⟩ := Option.map_eq_some_iff.mp hpush
  have hrecord : ({ c with client := some (client.push msg) } : LPushConn).record = c.record := by
    simp only [record, hclient]
    rfl
  have hrequests : requests (trace ++ [.queued msg]) = requests trace := by
    rw [requests_append]
    exact List.append_nil _
  obtain ⟨hstage, hrequested, hsent, hremoved⟩ := h
  refine ⟨?_, ?_, ?_, ?_⟩
  · rw [hrecord]
    exact hstage
  · cases hrequested with
    | unasked hmie htrace => exact .unasked hmie (hrequests.trans htrace)
    | queued address mie hmie hphase htrace => exact .queued address mie hmie hphase (hrequests.trans htrace)
    | dropped address mie hmie hphase htrace => exact .dropped address mie hmie hphase (hrequests.trans htrace)
  · have hcommands : commands (trace ++ [.queued msg]) = commands trace := by
      rw [commands_append]
      exact List.append_nil _
    cases hsent with
    | silent hphase hnone => exact .silent hphase (hcommands.trans hnone)
    | announced user utime hphase hkey hannounced =>
        exact .announced user utime hphase hkey (hcommands.trans hannounced)
    | active hmie => exact .active hmie
  · rw [List.countP_append, hremoved]
    rfl

/-- **Every connection keeps its record in shape**, in every history. -/
theorem history_filed {surroundings : Env → Prop} (hconf : ∀ env, surroundings env → env.conf = conf)
    (hrun : History surroundings trace c) : Filed conf trace c := by
  induction hrun with
  | start haccepted =>
      obtain ⟨stfd, beyond, rfl | rfl⟩ := haccepted
      · exact ⟨.opening, .unasked rfl rfl, .silent (.inl rfl) rfl, rfl⟩
      · exact ⟨.opening, .unasked rfl rfl, .silent (.inl rfl) rfl, rfl⟩
  | next hbefore hstep ih =>
      cases hstep with
      | thread env w thread henv hstep =>
          have hcoherent := (history_proper hbefore).2 (crashed_of_step hstep)
          have hturn := turn_step hcoherent (hcoherent.orderly ih.stage) hstep
          have hstage := ih.stage.turn hcoherent (hconf env henv) (outcome_step hcoherent hstep).stfd_eq hturn
          exact ⟨hstage, ih.requested.turn ih.stage hturn,
            ih.sent.turn hcoherent ih.stage hstage (hconf env henv) hturn, removed_turn ih.removed hturn⟩
      | queued msg hrunning hpush => exact ih.queued hpush

end filed

end LPushConn

namespace Server

section filed

variable {setup : Setup} {tasks : List Bytes} {trace : List Observation} {s : Server}

/-- Every connection of a run is in order. -/
theorem Reached.filed (hrun : Reached setup tasks trace s) {id : Nat} {c : LPushConn}
    (hc : s.conns id = some c) : LPushConn.Filed setup.conf (view id trace) c :=
  LPushConn.history_filed (fun _ henv => henv.1) (hrun.history hc)

/-- What a thread step does about the entries of its connection. -/
theorem Reached.turn (hrun : Reached setup tasks trace s) {id : Nat} {c : LPushConn} {w : World}
    {thread : LPushConn.ThreadName} {p : Progress} (hc : s.conns id = some c)
    (hstep : c.step (s.env setup) w thread = some p) : LPushConn.Turn (s.env setup) w c p := by
  have hcoherent := hrun.coherent hc hstep
  exact LPushConn.turn_step hcoherent (hcoherent.orderly (hrun.filed hc).stage) hstep

end filed

end Server

end LinkedonPush

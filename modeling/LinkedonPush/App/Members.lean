import LinkedonPush.App.Authentication
import LinkedonPush.App.Clocks
import LinkedonPush.App.Schedule
import LinkedonPush.Theory.Upsert

/-!
# Members

`createConnection` enters its user among the members of the application: it looks for a document in
Mongo and inserts one if the query has returned none. A query that fails returns none, too. The
processes share the database and the two calls are apart, so a user can be entered more than once.
-/

namespace LinkedonPush

open Theory

/-- The map that becomes the document, but for its time. -/
def LPushHandshakeMessage.toMongomap (message : LPushHandshakeMessage) : StringMap :=
  [(text "appKey", message.appId), (text "userId", message.userId), (text "identity", message.identity),
    (text "devices", message.devices), (text "status", text "1")]

/-- A document where it is stored. -/
structure Member where
  db : Bytes
  collection : Bytes
  document : Document

/-- The arguments of `queryToListJson`, the names as the C strings that Mongo is given. -/
structure MemberQuery where
  db : Bytes
  collection : Bytes
  params : StringMap
deriving DecidableEq

/-- One call of `userInsertMongodb`, with the database of the process. -/
structure MemberRequest where
  db : Bytes
  msg : LPushHandshakeMessage
deriving DecidableEq

def BsonValue.isText (value : Bytes) : BsonValue → Bool
  | utf8 stored => stored == value
  | _ => false

/-- The member has the values that the query asks for. -/
def MemberQuery.fits (q : MemberQuery) (member : Member) : Bool :=
  member.db == q.db && member.collection == q.collection &&
    q.params.all fun (key, value) => (member.document.members.lookup key).any (BsonValue.isText value)

namespace MemberRequest

def collectionName (r : MemberRequest) : Bytes := text "MEMBER_" ++ r.msg.appId

def query (r : MemberRequest) : MemberQuery where
  db := cStr r.db
  collection := cStr r.collectionName
  params := [(text "userId", r.msg.userId), (text "appKey", r.msg.appId)]

/-- The map with the time, an `int` that is printed. -/
def lpmap (r : MemberRequest) (time : Int) : StringMap :=
  r.msg.toMongomap ++ [(text "time", decimal (BitVec.ofInt 32 time).toInt)]

/-- `excute` makes a text of every value. -/
def excute (params : StringMap) : List (Bytes × BsonValue) :=
  params.map fun (key, value) => (key, .utf8 value)

theorem nodup_lpmap (r : MemberRequest) (time : Int) : ((excute (r.lpmap time)).map Prod.fst).Nodup := by
  have hkeys : (excute (r.lpmap time)).map Prod.fst =
      ["appKey", "userId", "identity", "devices", "status", "time"].map text := rfl
  rw [hkeys]
  decide

def member (r : MemberRequest) (time : Int) : Member where
  db := cStr r.db
  collection := cStr r.collectionName
  document := ⟨excute (r.lpmap time), nodup_lpmap r time⟩

end MemberRequest

/-! ### Who enters a user -/

/-- Any effect but a call of `userInsertMongodb`. -/
def Effect.Elsewhere : Effect → Prop
  | .userInsertMongodb _ => False
  | _ => True

namespace LPushConn

def Elsewhere (p : Progress) : Prop := ∀ e ∈ p.2, e.Elsewhere

/-- Before it yields, a thread enters nobody but the user that `handshake` has left. -/
def Enters (c : LPushConn) (p : Progress) : Prop :=
  ∀ msg, .userInsertMongodb msg ∈ p.2 → c.lphandshakeMsg = some msg ∧ ¬ c.Dismissed

section enters

variable {env : Env} {w : World} {c c' : LPushConn} {p : Progress} {effects : List Effect}

theorem Elsewhere.after (h : Elsewhere p) (heffects : ∀ e ∈ effects, e.Elsewhere) :
    Elsewhere (p.after effects) :=
  fun e he => (List.mem_append.mp he).elim (heffects e) (h e)

theorem Elsewhere.after_cons {e : Effect} (he : e.Elsewhere) (h : Elsewhere p) : Elsewhere (p.after [e]) :=
  h.after (List.forall_mem_singleton.mpr he)

theorem Elsewhere.enters (h : Elsewhere p) : Enters c p := fun _ hmem => (h _ hmem).elim

theorem elsewhere_stop (c : LPushConn) : Elsewhere (c, []) := fun _ he => (List.not_mem_nil he).elim

theorem elsewhere_die (c : LPushConn) (fault : Fault) : Elsewhere (c.die fault) :=
  List.forall_mem_singleton.mpr trivial

theorem OnlyRedis.elsewhere (h : OnlyRedis effects) : ∀ e ∈ effects, e.Elsewhere := by
  intro e he
  obtain ⟨command, rfl⟩ := h e he
  trivial

theorem elsewhere_of_parting (h : ∀ e ∈ p.2, Parting e) : Elsewhere p := by
  intro e he
  have hparting := h e he
  cases e with
  | userInsertMongodb msg => exact hparting.elim
  | _ => trivial

theorem elsewhere_finish (c : LPushConn) (ret : Int) : Elsewhere (c.finish ret) := by
  intro e he
  obtain rfl | rfl | ⟨address, rfl⟩ | hparting := mem_finish c he
  · trivial
  · trivial
  · trivial
  · cases e with
    | userInsertMongodb msg => exact hparting.elim
    | _ => trivial

theorem elsewhere_poll (c : LPushConn) : Elsewhere c.poll := by
  unfold poll
  split
  · exact elsewhere_finish c errorSuccess
  · split
    · exact elsewhere_finish c errorConnHreatbeatTimeout
    · exact elsewhere_stop _

theorem elsewhere_startTrd2 (c : LPushConn) : Elsewhere (c.startTrd2 w) := by
  unfold startTrd2
  split
  · exact elsewhere_die c .nullPointer
  · dsimp only
    split
    · exact elsewhere_stop _
    · exact elsewhere_poll _

theorem elsewhere_startTrd (c : LPushConn) : Elsewhere (c.startTrd w) := by
  unfold startTrd
  split
  · exact elsewhere_die c .nullPointer
  · dsimp only
    split
    · exact elsewhere_stop _
    · exact elsewhere_startTrd2 c

theorem elsewhere_connected (c : LPushConn) : Elsewhere (c.connected env w) := by
  unfold connected
  split
  · exact elsewhere_die c .nullPointer
  · exact .after_cons trivial (elsewhere_startTrd _)

theorem elsewhere_handshake (c : LPushConn) (r : MessageReading) : Elsewhere (c.handshake env w r) := by
  cases r with
  | need size resume => exact elsewhere_stop _
  | abort => exact elsewhere_die c .assertion
  | done result =>
      obtain ⟨ret, lpc, b⟩ := result
      have hmessage : Effect.Elsewhere (.message ret lpc) := trivial
      simp only [handshake]
      refine Elsewhere.after_cons hmessage ?_
      split
      · exact elsewhere_stop _
      · split
        · exact elsewhere_die _ .decoder
        · split
          · exact elsewhere_stop _
          · split
            · exact List.forall_mem_singleton.mpr trivial
            · exact List.forall_mem_singleton.mpr trivial

theorem elsewhere_withProtocol {next : MessageReading → Progress} (h : ∀ r, Elsewhere (next r)) :
    Elsewhere (c.withProtocol next) := by
  unfold withProtocol
  split
  · exact elsewhere_die c .nullPointer
  · exact h _

/-- What `createConnection` enters is the message of the handshake. -/
theorem register_enters {msg : LPushHandshakeMessage} (hmem : .userInsertMongodb msg ∈ (c.register env w).2) :
    c.lphandshakeMsg = some msg := by
  unfold register at hmem
  split at hmem
  · cases List.mem_singleton.mp hmem
  · rename_i msg' hmsg
    dsimp only at hmem
    have heq : msg = msg' := by
      split at hmem
      · simpa using hmem
      · simpa using hmem
    rw [heq]
    exact hmsg

theorem createConnection_enters {msg : LPushHandshakeMessage} {r : MessageReading}
    (hmem : .userInsertMongodb msg ∈ (c.createConnection env w r).2) : c.lphandshakeMsg = some msg := by
  cases r with
  | need size resume => exact (List.not_mem_nil hmem).elim
  | abort => cases List.mem_singleton.mp hmem
  | done result =>
      obtain ⟨ret, lpc, b⟩ := result
      simp only [createConnection] at hmem
      have hrest := (List.mem_cons.mp hmem).resolve_left (by intro h; cases h)
      split at hrest
      · exact (elsewhere_finish _ _ _ hrest).elim
      · split at hrest
        · exact (elsewhere_finish _ _ _ hrest).elim
        · exact register_enters (c := { c with lpushProtocol := some b }) hrest

theorem enters_cycle (hstep : c.cycle env w = some p) : Enters c p := by
  have hreading : ∀ {effects : List Effect} {p : Progress}, ¬ c.Dismissed →
      (∀ msg, .userInsertMongodb msg ∈ p.2 → c.lphandshakeMsg = some msg) →
      (∀ e ∈ effects, e.Elsewhere) → Enters c (p.after effects) := by
    intro effects p hactive hp heffects msg hmem
    rcases List.mem_append.mp hmem with hfirst | hrest
    · exact (heffects _ hfirst).elim
    · exact ⟨hp msg hrest, hactive⟩
  cases cycle_spec hstep with
  | created hpoint => exact (elsewhere_withProtocol (elsewhere_handshake c)).enters
  | handshake size resume hpoint hallowed => exact Elsewhere.enters (.after_cons trivial (elsewhere_handshake c _))
  | refusing chunk ret hpoint => exact Elsewhere.enters (.after_cons trivial (elsewhere_finish c ret))
  | unwritten chunk e hpoint hwrite => exact Elsewhere.enters (.after_cons trivial (elsewhere_finish c _))
  | accepting chunk hpoint hwrite =>
      refine hreading (fun hdismissed => ?_) (fun msg hmem => ?_) (List.forall_mem_singleton.mpr trivial)
      · unfold Dismissed at hdismissed
        rw [hpoint] at hdismissed
        simp at hdismissed
      · unfold withProtocol at hmem
        split at hmem
        · cases List.mem_singleton.mp hmem
        · exact createConnection_enters hmem
  | createConnection size resume hpoint hallowed =>
      refine hreading (fun hdismissed => ?_) (fun msg hmem => createConnection_enters hmem)
        (List.forall_mem_singleton.mpr trivial)
      unfold Dismissed at hdismissed
      rw [hpoint] at hdismissed
      simp at hdismissed
  | connecting chunk hpoint hwrite => exact Elsewhere.enters (.after_cons trivial (elsewhere_connected c))
  | noThread hpoint => exact (elsewhere_die c .nullPointer).enters
  | unready hpoint => exact (elsewhere_stop c).enters
  | startRecv t hpoint htrd hcid => exact (elsewhere_startTrd2 _).enters
  | startConsum u hpoint htrd2 hcid => exact (elsewhere_poll _).enters
  | polling hpoint => exact (elsewhere_poll c).enters
  | joinRecv t hpoint htrd hended => exact (elsewhere_of_parting (parting_deleteTrd2 _).1).enters
  | joinConsum u hpoint htrd2 hended => exact (elsewhere_of_parting (parting_release c).1).enters

theorem elsewhere_rests {stopped : LPushConn → LPushConn → Prop} (h : Rests stopped c p) : Elsewhere p := by
  cases h with
  | stops hstop => exact elsewhere_stop _
  | disposes hdispose hstop => exact (elsewhere_stop _).after (doDispose_spec hdispose).2.elsewhere
  | undisposed => exact elsewhere_die c .nullPointer

theorem elsewhere_recv (h : RecvDone env w c p) : Elsewhere p := by
  have hmessage : ∀ ret lpc, Effect.Elsewhere (.message ret lpc) := fun _ _ => trivial
  have hforward : ∀ lpc, Effect.Elsewhere (.forward lpc) := fun _ => trivial
  induction h with
  | rests h => exact elsewhere_rests h
  | received h ih => exact .after_cons trivial ih
  | aborted => exact elsewhere_die c .assertion
  | refused ret lpc b h => exact .after_cons (hmessage ret lpc) (elsewhere_rests h)
  | failed ret lpc b fault hresult =>
      exact .after_cons (hmessage ret lpc) (.after_cons (hforward lpc) (elsewhere_die _ fault))
  | @forwarded ret lpc b ret' c' effects p hresult h =>
      have hhandled := handled_forwardServer env w.beyond { c with lpushProtocol := some b } lpc
      rw [hresult] at hhandled
      have heffects : ∀ e ∈ effects ++ [.forwardReturned ret'], Effect.Elsewhere e := by
        rw [List.forall_mem_append, List.forall_mem_singleton]
        exact ⟨hhandled.2.elsewhere, trivial⟩
      exact .after_cons (hmessage ret lpc) (.after_cons (hforward lpc) ((elsewhere_rests h).after heffects))

theorem elsewhere_consum (h : ConsumDone env w c p) : Elsewhere p := by
  induction h with
  | rests h => exact elsewhere_rests h
  | wrote t work chunk ok htrd2 hpoint h ih => exact .after_cons trivial ih
  | popped => exact elsewhere_stop _
  | died fault hfault => exact elsewhere_die c fault

theorem enters_step {thread : ThreadName} (hstep : c.step env w thread = some p) : Enters c p := by
  obtain ⟨-, hthread⟩ := Option.ite_none_left_eq_some.mp hstep
  cases thread with
  | cycle => exact enters_cycle hthread
  | recv => exact (elsewhere_recv (recv_done hthread)).enters
  | consum => exact (elsewhere_consum (consum_done hthread)).enters

/-- Whoever is entered has passed both checks of `handshake` on the same connection. -/
theorem history_entered {surroundings : Env → Prop} {trace : List Effect} {msg : LPushHandshakeMessage}
    (hrun : History surroundings trace c) (hmem : .userInsertMongodb msg ∈ trace) :
    .presented msg ∈ trace ∧ ∃ env, surroundings env ∧ Admits env msg := by
  induction hrun with
  | start => exact (List.not_mem_nil hmem).elim
  | next hbefore hstep ih =>
      rcases List.mem_append.mp hmem with hpast | hnow
      · exact (ih hpast).imp_left (List.mem_append_left _)
      · cases hstep with
        | thread env w thread henv hstep =>
            obtain ⟨hmsg, hactive⟩ := enters_step hstep msg hnow
            obtain ⟨hpresented, hjudged⟩ := (history_vetted hbefore).message msg hmsg
            exact ⟨List.mem_append_left _ hpresented, hjudged.resolve_left hactive⟩
        | queued msg' hrunning hpush => simp at hnow

end enters

end LPushConn

namespace Server

/-- The request that a connection makes of Mongo. -/
def Observation.member? (setup : Setup) : Observation → Option MemberRequest
  | .conn _ (.userInsertMongodb msg) => some ⟨setup.conf.mongodb, msg⟩
  | _ => none

theorem Reached.enters {setup : Setup} {tasks : List Bytes} {trace : List Observation} {s : Server} {id : Nat}
    {msg : LPushHandshakeMessage} (hrun : Reached setup tasks trace s)
    (hmem : .conn id (.userInsertMongodb msg) ∈ trace) :
    .conn id (.presented msg) ∈ trace ∧ ∃ env, Surroundings setup env ∧ LPushConn.Admits env msg := by
  have hview := mem_view.mpr hmem
  cases hc : s.conns id with
  | none =>
      rw [hrun.projects.unseen id hc] at hview
      exact (List.not_mem_nil hview).elim
  | some c => exact (LPushConn.history_entered (hrun.history hc) hview).imp_left mem_view.mp

end Server

/-- The processes with the documents of the members. -/
def members (setups : Nat → Setup) : Upsert.System Server Server.Observation MemberRequest MemberQuery Member where
  step := fun n => Server.Step (setups n)
  request? := fun n => Server.Observation.member? (setups n)
  query := MemberRequest.query
  document := MemberRequest.member
  fits := MemberQuery.fits

/-- The entry that a call for the user leaves behind. -/
structure Member.Of (member : Member) (db : Bytes) (msg : LPushHandshakeMessage) : Prop where
  db_eq : member.db = cStr db
  collection_eq : member.collection = cStr (text "MEMBER_" ++ msg.appId)
  userId : member.document.members.lookup (text "userId") = some (.utf8 msg.userId)
  appKey : member.document.members.lookup (text "appKey") = some (.utf8 msg.appId)

section members

variable {setups : Nat → Setup} {tasks : Nat → List Bytes} {store : List Member}
  {trace : List (Upsert.Event Server.Observation MemberRequest Member)}
  {w : Upsert.World Server MemberRequest Member}

theorem any_isText {stored : Option BsonValue} {value : Bytes} :
    stored.any (BsonValue.isText value) = true ↔ stored = some (.utf8 value) := by
  cases stored with
  | none => exact ⟨nofun, nofun⟩
  | some stored =>
      cases stored with
      | utf8 text => simp [BsonValue.isText]
      | _ => exact ⟨nofun, nofun⟩

/-- What the query of a request finds are the entries of its user. -/
theorem fits_query_iff {r : MemberRequest} {member : Member} :
    r.query.fits member = true ↔ member.Of r.db r.msg := by
  simp only [MemberQuery.fits, MemberRequest.query, List.all_cons, List.all_nil, Bool.and_true,
    Bool.and_eq_true, beq_iff_eq, any_isText]
  constructor
  · rintro ⟨⟨hdb, hcollection⟩, huserId, happKey⟩
    exact ⟨hdb, hcollection, huserId, happKey⟩
  · rintro ⟨hdb, hcollection, huserId, happKey⟩
    exact ⟨⟨hdb, hcollection⟩, huserId, happKey⟩

theorem of_member (r : MemberRequest) (time : Int) : (r.member time).Of r.db r.msg := ⟨rfl, rfl, rfl, rfl⟩

theorem members_exact (setups : Nat → Setup) : (members setups).Exact where
  own := fun r time => fits_query_iff.mpr (of_member r time)
  apart := by
    intro r r' time hfits
    have hof := fits_query_iff.mp hfits
    have huserId : r'.msg.userId = r.msg.userId := BsonValue.utf8.inj (Option.some.inj hof.userId)
    have happKey : r'.msg.appId = r.msg.appId := BsonValue.utf8.inj (Option.some.inj hof.appKey)
    have hdb : cStr r'.db = cStr r.db := hof.db_eq
    change r.query = r'.query
    unfold MemberRequest.query MemberRequest.collectionName
    rw [huserId, happKey, hdb]

/-- The runs of the processes over the members that are there at the start. -/
abbrev Members.Reached (setups : Nat → Setup) (tasks : Nat → List Bytes) (store : List Member) :
    List (Upsert.Event Server.Observation MemberRequest Member) →
      Upsert.World Server MemberRequest Member → Prop :=
  (members setups).Reached (fun n s => s = .initial (tasks n)) store

/-- The entries of a user that process `n` has inserted. -/
def entered (setups : Nat → Setup) (n : Nat) (msg : LPushHandshakeMessage)
    (trace : List (Upsert.Event Server.Observation MemberRequest Member)) : List Member :=
  Upsert.insertedBy (members setups) n (MemberRequest.query ⟨(setups n).conf.mongodb, msg⟩) trace

/-- The queries of process `n` for a user that failed. -/
def failedQueries (setups : Nat → Setup) (n : Nat) (msg : LPushHandshakeMessage)
    (trace : List (Upsert.Event Server.Observation MemberRequest Member)) : List MemberRequest :=
  Upsert.lostBy (members setups) n (MemberRequest.query ⟨(setups n).conf.mongodb, msg⟩) trace

theorem has_iff {r : MemberRequest} {store : List Member} :
    (members setups).has store r = true ↔ ∃ member ∈ store, member.Of r.db r.msg := by
  rw [Upsert.System.has, List.any_eq_true]
  exact exists_congr fun member => and_congr_right fun _ => fits_query_iff

/-- **A process enters a user once, and once more for every query that fails.** It does not if there
was an entry at the start. Nothing that is stored is changed or removed. -/
theorem one_member (hrun : Members.Reached setups tasks store trace w) :
    w.store = store ++ Upsert.inserted trace ∧
      ∀ n msg, (entered setups n msg trace).length ≤ (failedQueries setups n msg trace).length + 1 ∧
        ((∃ member ∈ store, member.Of (setups n).conf.mongodb msg) →
          (entered setups n msg trace).length ≤ (failedQueries setups n msg trace).length) := by
  have hsound := Upsert.sound_of_run (members_exact setups) hrun
  refine ⟨hsound.store_eq, fun n msg => ?_⟩
  have hbounded := hsound.bounded n ⟨(setups n).conf.mongodb, msg⟩
  unfold Upsert.room at hbounded
  refine ⟨hbounded.trans (Nat.add_le_add_left ?_ _), fun hknown => ?_⟩
  · split
    · exact Nat.zero_le 1
    · exact Nat.le_refl 1
  · rwa [if_pos (has_iff.mpr hknown)] at hbounded

theorem mem_process {n : Nat} {o : Server.Observation} (h : o ∈ Upsert.view n trace) : .process n o ∈ trace := by
  obtain ⟨e, he, hprocess⟩ := List.mem_filterMap.mp h
  cases e with
  | process n' o' =>
      obtain ⟨rfl, heq⟩ := Option.ite_none_right_eq_some.mp hprocess
      cases heq
      exact he
  | lost | inserted | failed => cases hprocess

/-- **Members have passed the handshake.** Whatever is inserted is the entry of a user whose message
was presented to the process and passed both checks there. Whoever is entered has an entry, once the
process goes on, unless its insertion failed. -/
theorem members_vetted (hrun : Members.Reached setups tasks store trace w) :
    (∀ n r member, .inserted n r member ∈ trace → ∃ id msg env, r = ⟨(setups n).conf.mongodb, msg⟩ ∧
      member.Of (setups n).conf.mongodb msg ∧ .process n (.conn id (.presented msg)) ∈ trace ∧
        Server.Surroundings (setups n) env ∧ LPushConn.Admits env msg) ∧
    ∀ n id msg, .process n (.conn id (.userInsertMongodb msg)) ∈ trace → (w.nodes n).pending = [] →
      (∃ member ∈ w.store, member.Of (setups n).conf.mongodb msg) ∨
        .failed n ⟨(setups n).conf.mongodb, msg⟩ ∈ trace := by
  refine ⟨fun n r member hmem => ?_, fun n id msg hmem hidle => ?_⟩
  · obtain ⟨⟨o, ho, hrequest⟩, time, rfl⟩ := (Upsert.caused_of_run hrun).inserted n r member hmem
    have hown : Server.Reached (setups n) (tasks n) (Upsert.view n trace) (w.nodes n).state :=
      Upsert.System.Reached.node hrun n
    have hview : o ∈ Upsert.view n trace := List.mem_filterMap.mpr ⟨_, ho, if_pos rfl⟩
    cases o with
    | conn id effect =>
        cases effect with
        | userInsertMongodb msg =>
            cases hrequest
            obtain ⟨hpresented, env, henv, hadmits⟩ := hown.enters hview
            exact ⟨id, msg, env, rfl, of_member _ time, mem_process hpresented, henv, hadmits⟩
        | _ => cases hrequest
    | _ => cases hrequest
  · rcases Upsert.served_of_run (members_exact setups) hrun n _ _ hmem rfl with hwaits | hfailed | hhas
    · rw [hidle] at hwaits
      exact (hwaits.elim List.not_mem_nil List.not_mem_nil).elim
    · exact .inr hfailed
    · exact .inl (has_iff.mp hhas)

/-- A process that has not begun runs up to its first requests. -/
theorem reached_asking (w : Upsert.World Server MemberRequest Member) (n : Nat) {s : Server}
    {shown more : List Server.Observation} {s' : Server}
    (hrun : Members.Reached setups tasks [] trace w) (hidle : (w.nodes n).pending = [])
    (hfresh : (w.nodes n).state = .initial (tasks n)) (hown : Server.Reached (setups n) (tasks n) shown s)
    (hshown : (members setups).requests n shown = []) (hstep : Server.Step (setups n) s more s') :
    Members.Reached setups tasks [] (trace ++ (shown ++ more).map (.process n))
      (w.put n ⟨s', ((members setups).requests n more).map .find⟩) := by
  have hown' : Run (· = (w.nodes n).state) ((members setups).step n) shown s := by
    rw [hfresh]
    exact hown
  have hbefore := Upsert.System.Reached.replay hrun hidle hown' hshown
  have hnext := hbefore.next (.process n (by rw [Upsert.World.put_self]) (by rw [Upsert.World.put_self]; exact hstep))
  have hput : ∀ node node' : Upsert.Node Server MemberRequest, (w.put n node).put n node' = w.put n node' := by
    intro node node'
    simp only [Upsert.World.put, Function.update_idem]
  rw [hput] at hnext
  rwa [List.map_append, ← List.append_assoc]

end members

/-! ### Two processes at once -/

/-- User 7, as the processes get to know it. -/
def sevenMessage : LPushHandshakeMessage := .setParams Server.userMembers

def sevenRequest : MemberRequest := ⟨bareConfig.mongodb, sevenMessage⟩

def sevenSetups (_ : Nat) : Setup := Server.visitorSetup [Server.userSeven]

/-- User 7 connects, up to where it is entered. -/
theorem reached_seven : ∃ shown s more s', Server.Reached (sevenSetups 0) [] shown s ∧
    (members sevenSetups).requests 0 shown = [] ∧ Server.Step (sevenSetups 0) s more s' ∧
      (members sevenSetups).requests 0 more = [sevenRequest] := by
  obtain ⟨shown, s, hrun, hwanted⟩ := Server.reached_of_play (sevenSetups 0) []
    ((Server.enters 0 7 5 (Server.opening Server.userSeven)).take 3)
    (fun next => (members sevenSetups).requests 0 next.2 == [] &&
      (next.1.move (sevenSetups 0) (.thread 0 .cycle (Server.calm 5))).any fun last =>
        (members sevenSetups).requests 0 last.2 == [sevenRequest])
    (by decide +kernel)
  rw [Bool.and_eq_true, Option.any_eq_true, beq_iff_eq] at hwanted
  obtain ⟨hshown, ⟨s', more⟩, hmove, hmore⟩ := hwanted
  have hstep : Server.Step (sevenSetups 0) s more s' := hrun.step_of_move hmove
  exact ⟨shown, s, more, s', hrun, hshown, hstep, beq_iff_eq.mp hmore⟩

/-- It connects to two processes, and neither has inserted it when the other looks. -/
theorem reached_twice : ∃ trace w, Members.Reached sevenSetups (fun _ => []) [] trace w ∧
    w.store = [sevenRequest.member 0, sevenRequest.member 0] ∧ (w.nodes 0).pending = [] ∧
      .inserted 1 sevenRequest (sevenRequest.member 0) ∈ trace ∧
        ∃ id, .process 0 (.conn id (.userInsertMongodb sevenMessage)) ∈ trace := by
  obtain ⟨shown, s, more, s', hown, hshown, hstep, hmore⟩ := reached_seven
  have hstart : Members.Reached sevenSetups (fun _ => []) [] [] ⟨fun _ => ⟨.initial [], []⟩, []⟩ :=
    .start ⟨rfl, fun _ => ⟨rfl, rfl⟩⟩
  have hzero := reached_asking _ 0 hstart rfl rfl hown hshown hstep
  have hone := reached_asking _ 1 hzero rfl rfl hown hshown hstep
  have hpending : ((members sevenSetups).requests 0 more).map .find = [Upsert.Call.find sevenRequest] :=
    congrArg (List.map Upsert.Call.find) hmore
  have hmem : sevenRequest ∈ (members sevenSetups).requests 0 more := by
    rw [hmore]
    exact List.mem_cons_self
  obtain ⟨o, ho, hrequest⟩ := List.mem_filterMap.mp hmem
  have hne : (1 : Nat) ≠ 0 := by decide
  obtain ⟨w, hrun, hstore, hidle⟩ := Upsert.System.Reached.race hone hne hpending hpending rfl rfl 0
  refine ⟨_, w, hrun, hstore, hidle, List.mem_append_right _ (List.mem_cons_of_mem _ List.mem_cons_self), ?_⟩
  cases o with
  | conn id effect =>
      cases effect with
      | userInsertMongodb msg =>
          cases hrequest
          refine ⟨id, List.mem_append_left _ (List.mem_append_left _ (List.mem_append_right _ ?_))⟩
          exact List.mem_map.mpr ⟨_, List.mem_append_right _ ho, rfl⟩
      | _ => cases hrequest
  | _ => cases hrequest

/-- Two entries of one user, one for each process. -/
theorem one_member_twice : ∃ trace w, Members.Reached sevenSetups (fun _ => []) [] trace w ∧ w.store.length = 2 ∧
    ∀ n, (entered sevenSetups n sevenMessage trace).length ≤
      (failedQueries sevenSetups n sevenMessage trace).length + 1 := by
  obtain ⟨trace, w, hrun, hstore, -⟩ := reached_twice
  refine ⟨trace, w, hrun, ?_, fun n => ((one_member hrun).2 n sevenMessage).1⟩
  rw [hstore]
  rfl

/-- Process 1 has let the user in before it enters it, and process 0 has entered it too. -/
theorem members_vetted_twice : ∃ trace w, Members.Reached sevenSetups (fun _ => []) [] trace w ∧
    (∃ id env, .process 1 (.conn id (.presented sevenMessage)) ∈ trace ∧
      Server.Surroundings (sevenSetups 1) env ∧ LPushConn.Admits env sevenMessage) ∧
    ((∃ member ∈ w.store, member.Of bareConfig.mongodb sevenMessage) ∨ .failed 0 sevenRequest ∈ trace) := by
  obtain ⟨trace, w, hrun, -, hidle, hinserted, id, hmem⟩ := reached_twice
  obtain ⟨hvetted, hentered⟩ := members_vetted hrun
  obtain ⟨id', msg, env, hrequest, -, hpresented, henv, hadmits⟩ := hvetted 1 sevenRequest _ hinserted
  cases hrequest
  exact ⟨trace, w, hrun, ⟨id', env, hpresented, henv, hadmits⟩, hentered 0 id sevenMessage hmem hidle⟩

end LinkedonPush

import Mathlib.Logic.Function.Basic
import LinkedonPush.App.History
import LinkedonPush.App.Threads

/-!
# The server

All connections of one process together with the static maps of `LPushSource`, the request queue of
the history loader and the Redis list the main loop reads. ST threads switch only at yield points,
so one step is one thread going from a yield point to the next. `cycle_all` and the loader wait for
Redis and Mongo without yielding; while they do, only other processes can act.
-/

namespace LinkedonPush

/-- What stays fixed while the server runs: its configuration, its libraries and the hashes in
Redis. -/
structure Setup where
  conf : LPushConfig
  platform : Platform
  hashes : Bytes → Bytes → Option Bytes

def bareSetup : Setup := ⟨bareConfig, barePlatform, fun _ _ => none⟩

/-- Who holds the processor between two steps. -/
inductive Processor where
  | free
  /-- `cycle_all`, between its LRANGE and its LTRIM. -/
  | cycling (index : Nat)
  /-- `selectMongoHistoryWork`, between two queries. -/
  | loading (mie : MongoIOEntity)
deriving DecidableEq

/-- Connections are numbered in the order in which they were accepted, and the client and the source
that a connection creates carry its number. -/
structure Server where
  /-- Every connection accepted so far, the closed ones included. -/
  conns : Nat → Option LPushConn
  accepted : Nat
  /-- The vector `conns` of `LPushServer`. -/
  table : List Nat
  clients : Bytes → Option Nat
  sources : Nat → Option Nat
  /-- The queue of `LPushMongoIOThread`, with the addresses of its entries. -/
  history : List (Nat × MongoIOEntity)
  /-- The list under `taskKey`. -/
  tasks : List Bytes
  processor : Processor
  crashed : Bool

namespace Server

/-- The server before the first client; producers may have filled the list already. -/
def initial (tasks : List Bytes) : Server where
  conns := fun _ => none
  accepted := 0
  table := []
  clients := fun _ => none
  sources := fun _ => none
  history := []
  tasks := tasks
  processor := .free
  crashed := false

inductive Observation where
  | conn (id : Nat) (effect : Effect)
  | sourceDeleted (id : Nat)
  | accepted (id : Nat)
  /-- A producer's RPUSH. -/
  | pushed (element : Bytes)
  /-- `cycle_all` has looked up the client of an element. -/
  | dispatched (element : Bytes)
  /-- The LTRIM removed the first elements. -/
  | trimmed (count : Nat)
  | request (mie : MongoIOEntity)
  | document (json : Bytes)

/-! ### `LPushSource` -/

/-- The key of `LPushSource::instance`. -/
def sourceKey (userId appId screteKey : Bytes) : Bytes := userId ++ appId ++ screteKey

def sourceInstance (s : Server) (userId appId screteKey : Bytes) : Option Nat :=
  s.clients (sourceKey userId appId screteKey)

/-- `map::insert`: an existing entry stays. -/
def insertNew {κ : Type} [DecidableEq κ] (map : κ → Option Nat) (key : κ) (id : Nat) : κ → Option Nat :=
  match map key with
  | some _ => map
  | none => Function.update map key (some id)

/-- `LPushClient::push` on the client that connection `id` created; `none` if it is gone. -/
def push (s : Server) (id : Nat) (msg : LPushWorkerMessage) : Option Server :=
  match s.conns id with
  | none => none
  | some c => (c.push msg).map fun c => { s with conns := Function.update s.conns id (some c) }

/-! ### Effects of a connection -/

/-- What one effect of connection `id` does to the rest of the server. -/
def perform (id : Nat) (s : Server) : Effect → Server × List Observation
  | .createClient client =>
      ({ s with
          sources := insertNew s.sources client.cstfd id
          clients := insertNew s.clients client.key id }, [])
  | .pushHistory address mie => ({ s with history := s.history ++ [(address, mie)] }, [])
  | .findPop address =>
      ({ s with history := s.history.eraseP fun entry => entry.1 == address }, [])
  | .removed => ({ s with table := s.table.erase id }, [])
  | .destroyKey key => ({ s with clients := Function.update s.clients key none }, [])
  | .deleteClient cstfd =>
      match s.sources cstfd with
      | none => (s, [])
      | some source => ({ s with sources := Function.update s.sources cstfd none }, [.sourceDeleted source])
  | _ => (s, [])

def performAll (id : Nat) : Server → List Effect → Server × List Observation
  | s, [] => (s, [])
  | s, effect :: effects =>
      let (s, shown) := perform id s effect
      let (s, more) := performAll id s effects
      (s, .conn id effect :: shown ++ more)

def env (setup : Setup) (s : Server) : Env where
  conf := setup.conf
  platform := setup.platform
  hashes := setup.hashes
  registered := fun userId appId screteKey => (s.sourceInstance userId appId screteKey).isSome

/-- A thread of connection `id` runs to its next yield point. -/
def threadStep (setup : Setup) (id : Nat) (thread : LPushConn.ThreadName) (w : World) (s : Server) :
    Option (Server × List Observation) :=
  match s.conns id with
  | none => none
  | some c =>
      match c.step (s.env setup) w thread with
      | none => none
      | some (c, effects) =>
          some (performAll id
            { s with conns := Function.update s.conns id (some c), crashed := c.crashed } effects)

/-! ### `accept_client` -/

/-- The descriptor belongs to a connection that has not closed it. -/
def InUse (s : Server) (stfd : Nat) : Prop :=
  ∃ id c, s.conns id = some c ∧ c.stfd = stfd ∧ c.point ≠ .closed

/-- `fcntl` and `created` are the outcomes of the two `fcntl` calls and of `st_thread_create`. -/
def acceptClient (conf : LPushConfig) (stfd : Nat) (beyond : Bytes) (fcntl created : Bool) (s : Server) :
    Server × List Observation :=
  if conf.maxconnect ≤ s.table.length then (s, [])
  else if !fcntl then (s, [])
  else
    let c := LPushConn.create stfd beyond
    let c := if created then c else { c with point := .unstarted }
    ({ s with
        conns := Function.update s.conns s.accepted (some c)
        accepted := s.accepted + 1
        table := s.table ++ [s.accepted] },
      [.accepted s.accepted])

/-! ### `cycle_all` -/

/-- LRANGE 0 1000, both bounds inclusive. -/
def batch (tasks : List Bytes) : List Bytes := tasks.take 1001

/-- The loop over the batch, with its counter; `none` where a constructor raises. -/
def dispatchAll (platform : Platform) :
    Server → Nat → List Bytes → Option (Server × Nat × List Observation)
  | s, index, [] => some (s, index, [])
  | s, index, element :: works =>
      -- the reply is copied as a C string
      match LPushWorkerMessage.ofJson platform (cStr element) with
      | none => none
      | some lwm =>
          match s.sourceInstance lwm.userId lwm.appKey lwm.appSecret with
          | none =>
              match dispatchAll platform s (index + 1) works with
              | none => none
              | some (s, index, shown) => some (s, index, .dispatched element :: shown)
          | some id =>
              match s.push id lwm with
              | none => none
              | some s =>
                  match dispatchAll platform s (index + 1) works with
                  | none => none
                  | some (s, index, shown) =>
                      some (s, index, .dispatched element :: .conn id (.queued lwm) :: shown)

/-- `cycle_all` up to its LTRIM. -/
def cycleAll (platform : Platform) (s : Server) : Option (Server × List Observation) :=
  (dispatchAll platform s 0 (batch s.tasks)).map fun (s, index, shown) =>
    ({ s with processor := .cycling index }, shown)

/-- LTRIM index -1. -/
def ltrim (s : Server) (index : Nat) : Server × List Observation :=
  ({ s with tasks := s.tasks.drop index, processor := .free }, [.trimmed (min index s.tasks.length)])

/-! ### The history loader -/

/-- The loop over one page for the client of connection `id`; `none` where a text does not parse or a
constructor raises. -/
def loadAll (platform : Platform) (id : Nat) : Server → List Bytes → Option (Server × List Observation)
  | s, [] => some (s, [])
  | s, json :: result =>
      match LPushWorkerMessage.ofBson platform json with
      | none => none
      | some lpwm =>
          match s.push id lpwm with
          | none => none
          | some s =>
              match loadAll platform id s result with
              | none => none
              | some (s, shown) => some (s, .document json :: .conn id (.queued lpwm) :: shown)

/-- `selectMongoHistoryLimit` on the texts the query returned. -/
def selectMongoHistoryLimit (platform : Platform) (mie : MongoIOEntity) (result : List Bytes) (s : Server) :
    Option (Server × List Observation) :=
  match s.sourceInstance mie.userId mie.appKey mie.secreteKey with
  | none => some (s, [])
  | some id => loadAll platform id s result

/-! ### Steps and runs -/

/-- The steps of a server that has not crashed. -/
inductive Step (setup : Setup) : Server → List Observation → Server → Prop where
  /-- A new entry of the loader's queue gets an address that no other entry has. -/
  | thread {s : Server} {next : Server × List Observation} (id : Nat) (thread : LPushConn.ThreadName)
      (w : World) (hrunning : s.crashed = false) (hfree : s.processor = .free)
      (haddress : ∀ entry ∈ s.history, entry.1 ≠ w.address)
      (h : threadStep setup id thread w s = some next) : Step setup s next.2 next.1
  | accept {s : Server} (stfd : Nat) (beyond : Bytes) (fcntl created : Bool)
      (hrunning : s.crashed = false) (hfree : s.processor = .free) (hfd : ¬ s.InUse stfd) :
      Step setup s (acceptClient setup.conf stfd beyond fcntl created s).2
        (acceptClient setup.conf stfd beyond fcntl created s).1
  /-- Producers act at any time. -/
  | rpush {s : Server} (element : Bytes) (hrunning : s.crashed = false) :
      Step setup s [.pushed element] { s with tasks := s.tasks ++ [element] }
  | lrange {s : Server} {next : Server × List Observation} (hrunning : s.crashed = false)
      (hfree : s.processor = .free) (h : cycleAll setup.platform s = some next) :
      Step setup s next.2 next.1
  | ltrim {s : Server} (index : Nat) (hrunning : s.crashed = false) (hcycling : s.processor = .cycling index) :
      Step setup s (s.ltrim index).2 (s.ltrim index).1
  /-- The loader takes the first request of its queue. -/
  | request {s : Server} (address : Nat) (mie : MongoIOEntity) (rest : List (Nat × MongoIOEntity))
      (hrunning : s.crashed = false) (hfree : s.processor = .free)
      (hhistory : s.history = (address, mie) :: rest) :
      Step setup s [.request mie] { s with history := rest, processor := .loading mie }
  /-- One more page, of whatever texts the query returns. -/
  | page {s : Server} {next : Server × List Observation} (mie : MongoIOEntity) (result : List Bytes)
      (hrunning : s.crashed = false) (hloading : s.processor = .loading mie)
      (h : selectMongoHistoryLimit setup.platform mie result s = some next) : Step setup s next.2 next.1
  | loaded {s : Server} (mie : MongoIOEntity) (hrunning : s.crashed = false)
      (hloading : s.processor = .loading mie) : Step setup s [] { s with processor := .free }

/-- The runs of a server from its start with the given list. -/
abbrev Reached (setup : Setup) (tasks : List Bytes) : List Observation → Server → Prop :=
  Theory.Run (· = initial tasks) (Step setup)

end Server

end LinkedonPush

import LinkedonPush.App.LPushConn
import LinkedonPush.Theory.Run

/-!
# The threads of a connection

`LPushRecvThread::cycle`, `LPushConsumThread::cycle` and the `thread_cycle` of `LPushThread` around
them, cut at their yield points, and the transition relation of one connection: any of its threads
may go on, and others may push to its client's queue.
-/

namespace LinkedonPush

open Theory

namespace LPushConn

/-! ### The recv thread -/

/-- The end of an iteration of `thread_cycle`. -/
def recvCycled (c : LPushConn) (t : LPushRecvThread) : Progress :=
  if t.trd.loop then ({ c with trd := some { t with point := .resting } }, [])
  else ({ c with trd := some { t with point := .ended } }, [])

/-- `cycle` returns an error: `interrupt`, then `do_dispose`. -/
def recvFailed (c : LPushConn) (t : LPushRecvThread) : Progress :=
  match c.doDispose with
  | none => c.die .nullPointer
  | some (c, effects) => Progress.after effects (c.recvCycled { t with trd := { t.trd with loop := false } })

/-- The loop of `cycle` as far as its `readMessage` has got. -/
def recvRead (env : Env) (w : World) (c : LPushConn) (t : LPushRecvThread) : MessageReading → Progress
  | .need size resume => ({ c with trd := some { t with point := .reading (.need size resume) } }, [])
  | .abort => c.die .assertion
  | .done (ret, lpc, b) =>
      let c := { c with lpushProtocol := some b }
      Progress.after [.message ret lpc] <|
        let ret := if c.isActive then ret else errorNotActive
        if ret ≠ errorSuccess then c.recvFailed t
        else
          Progress.after [.forward lpc] <|
            match forwardServer env w.beyond c lpc with
            | .error fault => c.die fault
            | .ok (ret, c, effects) =>
                Progress.after (effects ++ [.forwardReturned ret]) <|
                  if ret ≠ errorSuccess then c.recvFailed t
                  else ({ c with trd := some { t with point := .sleeping } }, [])

/-- The head of the loop of `cycle`. -/
def recvCycle (env : Env) (w : World) (c : LPushConn) (t : LPushRecvThread) : Progress :=
  if t.trd.canRun then
    match c.lpushProtocol with
    | none => c.recvFailed t
    | some b => c.recvRead env w t (LPushProtocol.readMessage b)
  else c.recvCycled t

/-- The head of the loop of `thread_cycle`. -/
def recvThreadCycle (env : Env) (w : World) (c : LPushConn) (t : LPushRecvThread) : Progress :=
  if t.trd.loop then c.recvCycle env w t
  else ({ c with trd := some { t with point := .ended } }, [])

/-- The loop that waits for `can_run`. -/
def recvWait (env : Env) (w : World) (c : LPushConn) (t : LPushRecvThread) : Progress :=
  if !t.trd.canRun && t.trd.loop then ({ c with trd := some { t with point := .waiting } }, [])
  else c.recvThreadCycle env w t

/-- The recv thread runs from one yield point to the next. -/
def recv (env : Env) (w : World) (c : LPushConn) : Option Progress :=
  match c.trd with
  | none => none
  | some t =>
      if t.trd.tid then
        match t.point with
        | .created => some (c.recvWait env w { t with trd := { t.trd with cid := true } })
        | .waiting => some (c.recvWait env w t)
        | .reading (.need size resume) =>
            if w.delivery.Allowed size then
              some (Progress.after [.received w.delivery] (c.recvRead env w t (resume w.delivery)))
            else none
        | .reading _ => none
        | .sleeping => some (c.recvCycle env w t)
        | .resting => some (c.recvThreadCycle env w t)
        | .ended => none
      else none

/-- Where the recv thread stands, and what it goes on with. -/
inductive RecvTurn (env : Env) (w : World) (c : LPushConn) (t : LPushRecvThread) : Progress → Prop where
  | created (hpoint : t.point = .created) :
      RecvTurn env w c t (c.recvWait env w { t with trd := { t.trd with cid := true } })
  | waiting (hpoint : t.point = .waiting) : RecvTurn env w c t (c.recvWait env w t)
  | reading (size : Nat) (resume : Delivery SocketError UInt8 → MessageReading)
      (hpoint : t.point = .reading (.need size resume)) (hallowed : w.delivery.Allowed size) :
      RecvTurn env w c t (Progress.after [.received w.delivery] (c.recvRead env w t (resume w.delivery)))
  | sleeping (hpoint : t.point = .sleeping) : RecvTurn env w c t (c.recvCycle env w t)
  | resting (hpoint : t.point = .resting) : RecvTurn env w c t (c.recvThreadCycle env w t)

theorem recv_spec {env : Env} {w : World} {c : LPushConn} {p : Progress} (hstep : c.recv env w = some p) :
    ∃ t, c.trd = some t ∧ t.trd.tid = true ∧ RecvTurn env w c t p := by
  unfold recv at hstep
  split at hstep
  · cases hstep
  · rename_i t htrd
    split at hstep
    · rename_i htid
      refine ⟨t, htrd, htid, ?_⟩
      cases hpoint : t.point with
      | created =>
          rw [hpoint] at hstep
          cases hstep
          exact .created hpoint
      | waiting =>
          rw [hpoint] at hstep
          cases hstep
          exact .waiting hpoint
      | reading r =>
          rw [hpoint] at hstep
          cases r with
          | need size resume =>
              dsimp only at hstep
              split at hstep
              · rename_i hallowed
                cases hstep
                exact .reading size resume hpoint hallowed
              · cases hstep
          | done result | abort => cases hstep
      | sleeping =>
          rw [hpoint] at hstep
          cases hstep
          exact .sleeping hpoint
      | resting =>
          rw [hpoint] at hstep
          cases hstep
          exact .resting hpoint
      | ended =>
          rw [hpoint] at hstep
          cases hstep
    · cases hstep

/-! ### The consum thread -/

def consumCycled (c : LPushConn) (t : LPushConsumThread) : Progress :=
  if t.trd.loop then ({ c with trd2 := some { t with point := .resting } }, [])
  else ({ c with trd2 := some { t with point := .ended } }, [])

/-- `playing`, up to the write. -/
def playing (env : Env) (w : World) (c : LPushConn) (t : LPushConsumThread) (client : LPushClient) :
    Progress :=
  match LPushFastQueue.pop client.queue with
  | none => c.die .emptyPop
  | some (work, queue) =>
      match sendForward env.platform w.now work with
      | none => c.die .decoder
      | some chunk =>
          ({ c with
              client := some { client with queue := queue }
              trd2 := some { t with point := .writing work chunk } }, [])

/-- The loop of `cycle`. -/
def consumCycle (env : Env) (w : World) (c : LPushConn) (t : LPushConsumThread) : Progress :=
  if t.canRun then
    match c.client with
    | none => c.consumCycled t
    | some client =>
        if client.canLoop then c.playing env w t client
        else ({ c with trd2 := some { t with point := .sleeping } }, [])
  else c.consumCycled t

def consumThreadCycle (env : Env) (w : World) (c : LPushConn) (t : LPushConsumThread) : Progress :=
  if t.trd.loop then c.consumCycle env w t
  else ({ c with trd2 := some { t with point := .ended } }, [])

def consumWait (env : Env) (w : World) (c : LPushConn) (t : LPushConsumThread) : Progress :=
  if !t.trd.canRun && t.trd.loop then ({ c with trd2 := some { t with point := .waiting } }, [])
  else c.consumThreadCycle env w t

/-- A failed `sendForward`: `do_dispose`, then `interrupt`. -/
def consumFailed (c : LPushConn) (t : LPushConsumThread) : Progress :=
  match c.doDispose with
  | none => c.die .nullPointer
  | some (c, effects) =>
      Progress.after effects (c.consumCycled { t with trd := { t.trd with loop := false } })

/-- The consum thread runs from one yield point to the next. -/
def consum (env : Env) (w : World) (c : LPushConn) : Option Progress :=
  match c.trd2 with
  | none => none
  | some t =>
      if t.trd.tid then
        match t.point with
        | .created => some (c.consumWait env w { t with trd := { t.trd with cid := true } })
        | .waiting => some (c.consumWait env w t)
        | .sleeping => some (c.consumCycle env w t)
        | .writing work chunk =>
            some <| Progress.after [.wrote chunk w.writeError.isNone (some work)] <|
              match w.writeError with
              | some _ => c.consumFailed t
              | none => c.consumCycle env w t
        | .resting => some (c.consumThreadCycle env w t)
        | .ended => none
      else none

/-- Where the consum thread stands, and what it goes on with. -/
inductive ConsumTurn (env : Env) (w : World) (c : LPushConn) (t : LPushConsumThread) : Progress → Prop where
  | created (hpoint : t.point = .created) :
      ConsumTurn env w c t (c.consumWait env w { t with trd := { t.trd with cid := true } })
  | waiting (hpoint : t.point = .waiting) : ConsumTurn env w c t (c.consumWait env w t)
  | sleeping (hpoint : t.point = .sleeping) : ConsumTurn env w c t (c.consumCycle env w t)
  | failed (work : LPushWorkerMessage) (chunk : LPushChunk) (e : WriteError)
      (hpoint : t.point = .writing work chunk) (hwrite : w.writeError = some e) :
      ConsumTurn env w c t (Progress.after [.wrote chunk false (some work)] (c.consumFailed t))
  | written (work : LPushWorkerMessage) (chunk : LPushChunk) (hpoint : t.point = .writing work chunk)
      (hwrite : w.writeError = none) :
      ConsumTurn env w c t (Progress.after [.wrote chunk true (some work)] (c.consumCycle env w t))
  | resting (hpoint : t.point = .resting) : ConsumTurn env w c t (c.consumThreadCycle env w t)

theorem consum_spec {env : Env} {w : World} {c : LPushConn} {p : Progress} (hstep : c.consum env w = some p) :
    ∃ t, c.trd2 = some t ∧ t.trd.tid = true ∧ ConsumTurn env w c t p := by
  unfold consum at hstep
  split at hstep
  · cases hstep
  · rename_i t htrd2
    split at hstep
    · rename_i htid
      refine ⟨t, htrd2, htid, ?_⟩
      cases hpoint : t.point with
      | created =>
          rw [hpoint] at hstep
          cases hstep
          exact .created hpoint
      | waiting =>
          rw [hpoint] at hstep
          cases hstep
          exact .waiting hpoint
      | sleeping =>
          rw [hpoint] at hstep
          cases hstep
          exact .sleeping hpoint
      | writing work chunk =>
          rw [hpoint] at hstep
          cases hstep
          cases hwrite : w.writeError with
          | some e => exact .failed work chunk e hpoint hwrite
          | none => exact .written work chunk hpoint hwrite
      | resting =>
          rw [hpoint] at hstep
          cases hstep
          exact .resting hpoint
      | ended =>
          rw [hpoint] at hstep
          cases hstep
    · cases hstep

/-! ### What a helper thread comes to -/

/-- A helper thread comes to rest, behind `do_dispose` if something has failed. -/
inductive Rests (stopped : LPushConn → LPushConn → Prop) (c : LPushConn) : Progress → Prop where
  | stops {c' : LPushConn} (hstopped : stopped c c') : Rests stopped c (c', [])
  | disposes {c' c'' : LPushConn} {effects : List Effect} (hdispose : c.doDispose = some (c', effects))
      (hstopped : stopped c' c'') : Rests stopped c (Progress.after effects (c'', []))
  | undisposed (hdispose : c.doDispose = none) : Rests stopped c (c.die .nullPointer)

/-- The recv thread has gone somewhere. -/
def RecvStopped (c c' : LPushConn) : Prop := ∃ t : LPushRecvThread, c' = { c with trd := some t }

/-- The consum thread has gone somewhere, and not to a write. -/
def ConsumStopped (c c' : LPushConn) : Prop :=
  ∃ t : LPushConsumThread, c' = { c with trd2 := some t } ∧ ∀ work chunk, t.point ≠ .writing work chunk

/-- What the recv thread does before it yields: at most one message is read, and handed on once if at all. -/
inductive RecvDone (env : Env) (w : World) (c : LPushConn) : Progress → Prop where
  | rests {p : Progress} (h : Rests RecvStopped c p) : RecvDone env w c p
  | received {p : Progress} (h : RecvDone env w c p) :
      RecvDone env w c (Progress.after [.received w.delivery] p)
  | aborted : RecvDone env w c (c.die .assertion)
  | refused (ret : Int) (lpc : LPushChunk) (b : LPushFastBuffer) {p : Progress}
      (h : Rests RecvStopped { c with lpushProtocol := some b } p) :
      RecvDone env w c (Progress.after [.message ret lpc] p)
  | failed (ret : Int) (lpc : LPushChunk) (b : LPushFastBuffer) (fault : Fault)
      (hforward : forwardServer env w.beyond { c with lpushProtocol := some b } lpc = .error fault) :
      RecvDone env w c (Progress.after [.message ret lpc] (Progress.after [.forward lpc]
        ({ c with lpushProtocol := some b }.die fault)))
  | forwarded (ret : Int) (lpc : LPushChunk) (b : LPushFastBuffer) (ret' : Int) {c' : LPushConn}
      {effects : List Effect} {p : Progress}
      (hforward : forwardServer env w.beyond { c with lpushProtocol := some b } lpc = .ok (ret', c', effects))
      (h : Rests RecvStopped c' p) :
      RecvDone env w c (Progress.after [.message ret lpc] (Progress.after [.forward lpc]
        (Progress.after (effects ++ [.forwardReturned ret']) p)))

/-- What the consum thread does before it yields: at most one write comes back, and one message is popped. -/
inductive ConsumDone (env : Env) (w : World) (c : LPushConn) : Progress → Prop where
  | rests {p : Progress} (h : Rests ConsumStopped c p) : ConsumDone env w c p
  | wrote (t : LPushConsumThread) (work : LPushWorkerMessage) (chunk : LPushChunk) (ok : Bool) {p : Progress}
      (htrd2 : c.trd2 = some t) (hpoint : t.point = .writing work chunk) (h : ConsumDone env w c p) :
      ConsumDone env w c (Progress.after [.wrote chunk ok (some work)] p)
  | popped (t : LPushConsumThread) (client : LPushClient) (work : LPushWorkerMessage)
      (queue : List LPushWorkerMessage) (chunk : LPushChunk) (hclient : c.client = some client)
      (hqueue : LPushFastQueue.pop client.queue = some (work, queue))
      (hchunk : sendForward env.platform w.now work = some chunk) :
      ConsumDone env w c
        ({ c with
            client := some { client with queue := queue }
            trd2 := some { t with point := .writing work chunk } }, [])
  | died (fault : Fault) (hfault : fault ≠ .nullPointer) : ConsumDone env w c (c.die fault)

section done

variable {env : Env} {w : World} {c : LPushConn} {p : Progress}

theorem stops_recvCycled (c : LPushConn) (t : LPushRecvThread) :
    ∃ c', c.recvCycled t = (c', []) ∧ RecvStopped c c' := by
  unfold recvCycled
  split
  · exact ⟨_, rfl, _, rfl⟩
  · exact ⟨_, rfl, _, rfl⟩

theorem rests_recvFailed (c : LPushConn) (t : LPushRecvThread) : Rests RecvStopped c (c.recvFailed t) := by
  unfold recvFailed
  cases hdispose : c.doDispose with
  | none => exact .undisposed hdispose
  | some progress =>
      obtain ⟨c', effects⟩ := progress
      obtain ⟨c'', hcycled, hstopped⟩ := stops_recvCycled c' { t with trd := { t.trd with loop := false } }
      dsimp only
      rw [hcycled]
      exact .disposes hdispose hstopped

theorem done_recvRead (c : LPushConn) (t : LPushRecvThread) (r : MessageReading) :
    RecvDone env w c (c.recvRead env w t r) := by
  cases r with
  | need size resume => exact .rests (.stops ⟨_, rfl⟩)
  | abort => exact .aborted
  | done result =>
      obtain ⟨ret, lpc, b⟩ := result
      simp only [recvRead]
      generalize (if ({ c with lpushProtocol := some b } : LPushConn).isActive then ret
        else errorNotActive) = code
      split
      · exact .refused ret lpc b (rests_recvFailed _ t)
      · split
        · rename_i fault hforward
          exact .failed ret lpc b fault hforward
        · rename_i ret' c' effects hforward
          refine .forwarded ret lpc b ret' hforward ?_
          split
          · exact rests_recvFailed c' t
          · exact .stops ⟨_, rfl⟩

theorem done_recvCycle (c : LPushConn) (t : LPushRecvThread) : RecvDone env w c (c.recvCycle env w t) := by
  unfold recvCycle
  split
  · split
    · exact .rests (rests_recvFailed c t)
    · exact done_recvRead c t _
  · obtain ⟨c', hcycled, hstopped⟩ := stops_recvCycled c t
    rw [hcycled]
    exact .rests (.stops hstopped)

theorem done_recvThreadCycle (c : LPushConn) (t : LPushRecvThread) :
    RecvDone env w c (c.recvThreadCycle env w t) := by
  unfold recvThreadCycle
  split
  · exact done_recvCycle c t
  · exact .rests (.stops ⟨_, rfl⟩)

theorem done_recvWait (c : LPushConn) (t : LPushRecvThread) : RecvDone env w c (c.recvWait env w t) := by
  unfold recvWait
  split
  · exact .rests (.stops ⟨_, rfl⟩)
  · exact done_recvThreadCycle c t

/-- **What the recv thread can do**, all told. -/
theorem recv_done (hstep : c.recv env w = some p) : RecvDone env w c p := by
  obtain ⟨t, -, -, hturn⟩ := recv_spec hstep
  cases hturn with
  | created hpoint | waiting hpoint => exact done_recvWait c _
  | reading size resume hpoint hallowed => exact .received (done_recvRead c t _)
  | sleeping hpoint => exact done_recvCycle c t
  | resting hpoint => exact done_recvThreadCycle c t

theorem stops_consumCycled (c : LPushConn) (t : LPushConsumThread) :
    ∃ c', c.consumCycled t = (c', []) ∧ ConsumStopped c c' := by
  unfold consumCycled
  split
  · exact ⟨_, rfl, _, rfl, fun _ _ => ConsumPoint.noConfusion⟩
  · exact ⟨_, rfl, _, rfl, fun _ _ => ConsumPoint.noConfusion⟩

theorem rests_consumFailed (c : LPushConn) (t : LPushConsumThread) : Rests ConsumStopped c (c.consumFailed t) := by
  unfold consumFailed
  cases hdispose : c.doDispose with
  | none => exact .undisposed hdispose
  | some progress =>
      obtain ⟨c', effects⟩ := progress
      obtain ⟨c'', hcycled, hstopped⟩ := stops_consumCycled c' { t with trd := { t.trd with loop := false } }
      dsimp only
      rw [hcycled]
      exact .disposes hdispose hstopped

theorem done_consumCycle (c : LPushConn) (t : LPushConsumThread) :
    ConsumDone env w c (c.consumCycle env w t) := by
  have hcycled : ConsumDone env w c (c.consumCycled t) := by
    obtain ⟨c', hcycled, hstopped⟩ := stops_consumCycled c t
    rw [hcycled]
    exact .rests (.stops hstopped)
  unfold consumCycle
  split
  · split
    · exact hcycled
    · rename_i client hclient
      split
      · unfold playing
        split
        · exact .died .emptyPop Fault.noConfusion
        · rename_i work queue hqueue
          split
          · exact .died .decoder Fault.noConfusion
          · rename_i chunk hchunk
            exact .popped t client work queue chunk hclient hqueue hchunk
      · exact .rests (.stops ⟨_, rfl, fun _ _ => ConsumPoint.noConfusion⟩)
  · exact hcycled

theorem done_consumThreadCycle (c : LPushConn) (t : LPushConsumThread) :
    ConsumDone env w c (c.consumThreadCycle env w t) := by
  unfold consumThreadCycle
  split
  · exact done_consumCycle c t
  · exact .rests (.stops ⟨_, rfl, fun _ _ => ConsumPoint.noConfusion⟩)

theorem done_consumWait (c : LPushConn) (t : LPushConsumThread) :
    ConsumDone env w c (c.consumWait env w t) := by
  unfold consumWait
  split
  · exact .rests (.stops ⟨_, rfl, fun _ _ => ConsumPoint.noConfusion⟩)
  · exact done_consumThreadCycle c t

/-- **What the consum thread can do**, all told. -/
theorem consum_done (hstep : c.consum env w = some p) : ConsumDone env w c p := by
  obtain ⟨t, htrd2, -, hturn⟩ := consum_spec hstep
  cases hturn with
  | created hpoint | waiting hpoint => exact done_consumWait c _
  | sleeping hpoint => exact done_consumCycle c t
  | failed work chunk e hpoint hwrite => exact .wrote t work chunk false htrd2 hpoint (.rests (rests_consumFailed c t))
  | written work chunk hpoint hwrite => exact .wrote t work chunk true htrd2 hpoint (done_consumCycle c t)
  | resting hpoint => exact done_consumThreadCycle c t

end done

/-! ### The transition relation -/

inductive ThreadName where
  | cycle
  | recv
  | consum
deriving DecidableEq

def step (env : Env) (w : World) (thread : ThreadName) (c : LPushConn) : Option Progress :=
  if c.crashed then none
  else
    match thread with
    | .cycle => c.cycle env w
    | .recv => c.recv env w
    | .consum => c.consum env w

/-- One step of a connection in some surroundings. -/
inductive Step (surroundings : Env → Prop) : LPushConn → List Effect → LPushConn → Prop where
  | thread {c c' : LPushConn} {effects : List Effect} (env : Env) (w : World) (thread : ThreadName)
      (henv : surroundings env) (h : c.step env w thread = some (c', effects)) :
      Step surroundings c effects c'
  | queued {c c' : LPushConn} (msg : LPushWorkerMessage) (hrunning : c.crashed = false)
      (h : c.push msg = some c') : Step surroundings c [.queued msg] c'

/-- A connection that was just accepted, with or without a thread. -/
def Accepted (c : LPushConn) : Prop :=
  ∃ stfd beyond, c = .create stfd beyond ∨ c = { LPushConn.create stfd beyond with point := .unstarted }

/-- The runs of a connection: any order of its threads' steps and of pushes from outside. -/
abbrev History (surroundings : Env → Prop) : List Effect → LPushConn → Prop :=
  Run Accepted (Step surroundings)

end LPushConn

end LinkedonPush

import LinkedonPush.App.Threads

/-!
# What a connection may say and when

The contract of one connection, without its threads: which effect may follow which others. `Legal`
states it effect by effect, and the theorems below draw the consequences for whole traces.
-/

namespace LinkedonPush

open Theory

/-! ### Reading a trace -/

namespace Effect

@[simp] def delivery? : Effect → Option (Delivery SocketError UInt8)
  | received d => some d
  | _ => none

/-- The chunk of a successful `readMessage`. -/
@[simp] def taken? : Effect → Option LPushChunk
  | message ret lpc => if ret = errorSuccess then some lpc else none
  | _ => none

@[simp] def handed? : Effect → Option LPushChunk
  | forward lpc => some lpc
  | _ => none

@[simp] def written? : Effect → Option (LPushChunk × Bool)
  | wrote chunk ok _ => some (chunk, ok)
  | _ => none

@[simp] def pushed? : Effect → Option LPushWorkerMessage
  | queued msg => some msg
  | _ => none

/-- The message of a push frame that was written successfully. -/
@[simp] def delivered? : Effect → Option LPushWorkerMessage
  | wrote _ true work => work
  | _ => none

/-- Something went wrong on the reading side: a read, a `readMessage` or a `forwardServer`. -/
@[simp] def readFailure : Effect → Bool
  | received (.error _) => true
  | message ret _ => ret ≠ errorSuccess
  | forwardReturned ret => ret ≠ errorSuccess
  | _ => false

/-- A push frame could not be written. -/
@[simp] def pushFailure : Effect → Bool
  | wrote _ false (some _) => true
  | _ => false

end Effect

/-- The bytes received from the client. -/
def stream (trace : List Effect) : Bytes := received (trace.filterMap Effect.delivery?)

def taken (trace : List Effect) : List LPushChunk := trace.filterMap Effect.taken?

def handed (trace : List Effect) : List LPushChunk := trace.filterMap Effect.handed?

def written (trace : List Effect) : List (LPushChunk × Bool) := trace.filterMap Effect.written?

def pushed (trace : List Effect) : List LPushWorkerMessage := trace.filterMap Effect.pushed?

def delivered (trace : List Effect) : List LPushWorkerMessage := trace.filterMap Effect.delivered?

/-! ### Frames of the server -/

inductive FrameKind where
  | handshake (b : UInt8)
  | connection (b : UInt8)
  | push
  | other
deriving DecidableEq

def frameKind (chunk : LPushChunk) : FrameKind :=
  if chunk.header.dataType = LPushConn.lpushCallbackTypePush then .push
  else
    match chunk.data with
    | [b] =>
        if chunk.header.dataType = LPushConn.lpushCallbackTypeHandshake then .handshake b
        else if chunk.header.dataType = LPushConn.lpushCallbackTypeConnectionIsOk then .connection b
        else .other
    | _ => .other

/-- The conversations the server may start. -/
def Conversation (kinds : List FrameKind) : Prop :=
  kinds <+: [.handshake 0] ∨ kinds <+: [.handshake 2] ∨ kinds <+: [.handshake 1, .connection 2] ∨
    ∃ n, kinds <+: [.handshake 1, .connection 1] ++ List.replicate n .push

/-- How far the writing side has got. -/
inductive Writer where
  | opening
  | accepted
  | connected
  /-- A refusal was sent, or a write failed. -/
  | finished
  | broken
deriving DecidableEq

namespace Writer

/-- The state after a write of a frame and its outcome. -/
def next : Writer → FrameKind × Bool → Writer
  | opening, (.handshake b, ok) =>
      if b = 1 then if ok then accepted else finished
      else if b = 0 ∨ b = 2 then finished
      else broken
  | accepted, (.connection b, ok) =>
      if b = 1 then if ok then connected else finished
      else if b = 2 then finished
      else broken
  | connected, (.push, ok) => if ok then connected else finished
  | _, _ => broken

/-- What has been written when the writing side is in a given state. -/
def Explains : Writer → List (FrameKind × Bool) → Prop
  | opening, writes => writes = []
  | accepted, writes => writes = [(.handshake 1, true)]
  | connected, writes =>
      ∃ n, writes = [(.handshake 1, true), (.connection 1, true)] ++ List.replicate n (.push, true)
  | finished, writes =>
      Conversation (writes.map Prod.fst) ∧ ∀ write ∈ writes.dropLast, write.2 = true
  | broken, _ => True

theorem Explains.next {writer : Writer} {writes : List (FrameKind × Bool)} (h : writer.Explains writes)
    (write : FrameKind × Bool) : (writer.next write).Explains (writes ++ [write]) := by
  obtain ⟨kind, ok⟩ := write
  cases writer with
  | opening =>
      subst h
      cases kind with
      | handshake b =>
          by_cases hb : b = 1
          · subst hb
            cases ok with
            | true => rfl
            | false => exact ⟨.inr (.inr (.inl (by decide))), by simp⟩
          · by_cases hrefusal : b = 0 ∨ b = 2
            · simp only [Writer.next, if_neg hb, if_pos hrefusal]
              refine ⟨?_, by simp⟩
              rcases hrefusal with rfl | rfl
              · exact .inl (by simp)
              · exact .inr (.inl (by simp))
            · simp only [Writer.next, if_neg hb, if_neg hrefusal]
              trivial
      | connection b => trivial
      | push => trivial
      | other => trivial
  | accepted =>
      subst h
      cases kind with
      | connection b =>
          by_cases hb : b = 1
          · subst hb
            cases ok with
            | true => exact ⟨0, rfl⟩
            | false => exact ⟨.inr (.inr (.inr ⟨0, by decide⟩)), by simp⟩
          · by_cases hrefusal : b = 2
            · subst hrefusal
              exact ⟨.inr (.inr (.inl (by simp))), by simp⟩
            · simp only [Writer.next, if_neg hb, if_neg hrefusal]
              trivial
      | handshake b => trivial
      | push => trivial
      | other => trivial
  | connected =>
      obtain ⟨n, rfl⟩ := h
      cases kind with
      | push =>
          cases ok with
          | true =>
              refine ⟨n + 1, ?_⟩
              rw [List.append_assoc, List.replicate_succ']
          | false =>
              constructor
              · refine .inr (.inr (.inr ⟨n + 1, ?_⟩))
                simp [List.replicate_succ']
              · intro write hwrite
                rw [List.dropLast_concat, List.mem_append, List.mem_replicate] at hwrite
                rcases hwrite with hopening | ⟨-, rfl⟩
                · rcases List.mem_pair.mp hopening with rfl | rfl <;> rfl
                · rfl
      | handshake b => trivial
      | connection b => trivial
      | other => trivial
  | finished => trivial
  | broken => trivial

end Writer

/-! ### The contract -/

/-- What has been said on a connection. -/
structure Dialogue where
  stream : Bytes
  taken : List LPushChunk
  handed : List LPushChunk
  written : List (LPushChunk × Bool)
  pushed : List LPushWorkerMessage
  delivered : List LPushWorkerMessage
  readFailed : Bool
  pushFailed : Bool

namespace Dialogue

def silent : Dialogue := ⟨[], [], [], [], [], [], false, false⟩

def kinds (d : Dialogue) : List (FrameKind × Bool) := d.written.map fun write => (frameKind write.1, write.2)

/-- The state of the writing side. -/
def writer (d : Dialogue) : Writer := d.kinds.foldl Writer.next .opening

/-- Connection 0x01 has been written successfully. -/
def Connected (d : Dialogue) : Prop := (.connection 1, true) ∈ d.kinds

/-- The dialogue after one more effect. -/
def note (d : Dialogue) (e : Effect) : Dialogue where
  stream := d.stream ++ received e.delivery?.toList
  taken := d.taken ++ e.taken?.toList
  handed := d.handed ++ e.handed?.toList
  written := d.written ++ e.written?.toList
  pushed := d.pushed ++ e.pushed?.toList
  delivered := d.delivered ++ e.delivered?.toList
  readFailed := d.readFailed || e.readFailure
  pushFailed := d.pushFailed || e.pushFailure

/-- What a connection may do next. -/
def Legal (d : Dialogue) : Effect → Prop
  | .message ret lpc => ret = errorSuccess → ∀ rest, d.taken ++ [lpc] <+: frames (d.stream ++ rest)
  | .forward lpc => d.Connected ∧ d.readFailed = false ∧ d.handed ++ [lpc] = d.taken.drop 2
  | .wrote chunk ok work =>
      d.writer.next (frameKind chunk, ok) ≠ .broken ∧
        (ok = true → ∀ msg, work = some msg → d.delivered ++ [msg] <+: d.pushed)
  | .died .emptyPop => False
  | _ => True

@[simp] theorem note_received (d : Dialogue) (delivery : Delivery SocketError UInt8) :
    d.note (.received delivery) = { d with
      stream := d.stream ++ received [delivery]
      readFailed := d.readFailed || (Effect.received delivery).readFailure } := by
  simp [note]

@[simp] theorem note_message_success (d : Dialogue) (lpc : LPushChunk) :
    d.note (.message errorSuccess lpc) = { d with taken := d.taken ++ [lpc] } := by
  simp [note]

theorem note_message_error (d : Dialogue) {ret : Int} (lpc : LPushChunk) (h : ret ≠ errorSuccess) :
    d.note (.message ret lpc) = { d with readFailed := true } := by
  simp [note, h]

@[simp] theorem note_forward (d : Dialogue) (lpc : LPushChunk) :
    d.note (.forward lpc) = { d with handed := d.handed ++ [lpc] } := by
  simp [note]

theorem note_forwardReturned (d : Dialogue) (ret : Int) :
    d.note (.forwardReturned ret) =
      { d with readFailed := d.readFailed || decide (ret ≠ errorSuccess) } := by
  simp [note]

@[simp] theorem note_queued (d : Dialogue) (msg : LPushWorkerMessage) :
    d.note (.queued msg) = { d with pushed := d.pushed ++ [msg] } := by
  simp [note]

@[simp] theorem note_wrote_none (d : Dialogue) (chunk : LPushChunk) (ok : Bool) :
    d.note (.wrote chunk ok none) = { d with written := d.written ++ [(chunk, ok)] } := by
  cases ok <;> simp [note]

@[simp] theorem note_wrote_push (d : Dialogue) (chunk : LPushChunk) (work : LPushWorkerMessage) :
    d.note (.wrote chunk true (some work)) =
      { d with written := d.written ++ [(chunk, true)], delivered := d.delivered ++ [work] } := by
  simp [note]

@[simp] theorem note_wrote_push_failed (d : Dialogue) (chunk : LPushChunk) (work : LPushWorkerMessage) :
    d.note (.wrote chunk false (some work)) =
      { d with written := d.written ++ [(chunk, false)], pushFailed := true } := by
  simp [note]

theorem writer_of_written {d d' : Dialogue} {chunk : LPushChunk} {ok : Bool}
    (h : d'.written = d.written ++ [(chunk, ok)]) : d'.writer = d.writer.next (frameKind chunk, ok) := by
  simp [writer, kinds, h]

theorem writer_note_wrote (d : Dialogue) (chunk : LPushChunk) (ok : Bool)
    (work : Option LPushWorkerMessage) :
    (d.note (.wrote chunk ok work)).writer = d.writer.next (frameKind chunk, ok) :=
  writer_of_written rfl

theorem writer_note (d : Dialogue) (e : Effect) : (d.note e).writer =
    (e.written?.toList.map fun write => (frameKind write.1, write.2)).foldl Writer.next d.writer := by
  simp [note, writer, kinds]

theorem explains_writer (d : Dialogue) : d.writer.Explains d.kinds := by
  unfold writer
  generalize d.kinds = kinds
  induction kinds using List.reverseRecOn with
  | nil => rfl
  | append_singleton kinds write ih =>
      rw [List.foldl_append, List.foldl_cons, List.foldl_nil]
      exact ih.next write

end Dialogue

/-- The dialogue a trace amounts to. -/
def dialogue (trace : List Effect) : Dialogue where
  stream := stream trace
  taken := taken trace
  handed := handed trace
  written := written trace
  pushed := pushed trace
  delivered := delivered trace
  readFailed := trace.any Effect.readFailure
  pushFailed := trace.any Effect.pushFailure

theorem received_delivery (e : Effect) :
    received ([e].filterMap Effect.delivery?) = received e.delivery?.toList := by
  cases e <;> rfl

@[simp] theorem dialogue_append (trace : List Effect) (e : Effect) :
    dialogue (trace ++ [e]) = (dialogue trace).note e := by
  simp only [dialogue, Dialogue.note, stream, taken, handed, written, pushed, delivered,
    List.filterMap_append, received_append, received_delivery, List.any_append, List.any_cons, List.any_nil,
    Bool.or_false]
  cases e with
  | message ret lpc => by_cases hret : ret = errorSuccess <;> simp [hret]
  | wrote chunk ok work => cases ok <;> cases work <;> simp
  | _ => simp

/-! ### Proper traces -/

/-- Every effect of the trace is legal where it happens. -/
def Proper (trace : List Effect) : Prop := Throughout (fun before e => (dialogue before).Legal e) trace

/-- Effects that are legal one after the other. -/
def Dialogue.Follows (d : Dialogue) : List Effect → Prop
  | [] => True
  | e :: effects => d.Legal e ∧ (d.note e).Follows effects

def Dialogue.notes (d : Dialogue) (effects : List Effect) : Dialogue := effects.foldl Dialogue.note d

theorem dialogue_append_list (trace effects : List Effect) :
    dialogue (trace ++ effects) = (dialogue trace).notes effects := by
  induction effects generalizing trace with
  | nil => rw [List.append_nil]; rfl
  | cons e effects ih =>
      rw [← List.singleton_append, ← List.append_assoc, ih, dialogue_append]
      rfl

theorem Proper.append {trace effects : List Effect} (h : Proper trace)
    (hfollows : (dialogue trace).Follows effects) : Proper (trace ++ effects) := by
  induction effects generalizing trace with
  | nil => rwa [List.append_nil]
  | cons e effects ih =>
      rw [← List.singleton_append, ← List.append_assoc]
      apply ih (throughout_append_singleton.mpr ⟨h, hfollows.1⟩)
      rw [dialogue_append]
      exact hfollows.2

section

variable {trace : List Effect}

theorem Proper.writer_ne_broken (h : Proper trace) : (dialogue trace).writer ≠ .broken := by
  induction trace using List.reverseRecOn with
  | nil => exact Writer.noConfusion
  | append_singleton trace e ih =>
      obtain ⟨htrace, hlegal⟩ := throughout_append_singleton.mp h
      rw [dialogue_append, Dialogue.writer_note]
      cases e with
      | wrote chunk ok work => exact hlegal.1
      | _ => exact ih htrace

/-- The frames returned so far are frames of the stream, however it goes on. -/
theorem Proper.prefix_taken (h : Proper trace) (rest : Bytes) :
    taken trace <+: frames (stream trace ++ rest) := by
  change (dialogue trace).taken <+: frames ((dialogue trace).stream ++ rest)
  induction trace using List.reverseRecOn generalizing rest with
  | nil => exact List.nil_prefix
  | append_singleton trace e ih =>
      obtain ⟨htrace, hlegal⟩ := throughout_append_singleton.mp h
      have hbefore := ih htrace (received e.delivery?.toList ++ rest)
      rw [dialogue_append]
      simp only [Dialogue.note, List.append_assoc]
      cases htaken : e.taken? with
      | none => simpa using hbefore
      | some lpc =>
          cases e with
          | message ret lpc' =>
              simp only [Effect.taken?, Option.ite_none_right_eq_some, Option.some.injEq] at htaken
              obtain ⟨hret, rfl⟩ := htaken
              simpa using hlegal hret rest
          | _ => cases htaken

/-- What was handed on is what was returned after the first two frames. -/
theorem Proper.prefix_handed (h : Proper trace) : handed trace <+: (taken trace).drop 2 := by
  change (dialogue trace).handed <+: (dialogue trace).taken.drop 2
  induction trace using List.reverseRecOn with
  | nil => exact List.nil_prefix
  | append_singleton trace e ih =>
      obtain ⟨htrace, hlegal⟩ := throughout_append_singleton.mp h
      have hmore := (ih htrace).trans ((List.prefix_append _ e.taken?.toList).drop 2)
      rw [dialogue_append]
      cases hhanded : e.handed? with
      | none => simpa only [Dialogue.note, hhanded, Option.toList_none, List.append_nil] using hmore
      | some lpc =>
          cases e with
          | forward lpc' =>
              rw [Dialogue.note_forward, hlegal.2.2]
          | _ => cases hhanded

end

end LinkedonPush

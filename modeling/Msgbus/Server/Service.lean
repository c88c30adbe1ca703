import Msgbus.Formats
import Msgbus.Store
import Msgbus.Lib.Program
import Msgbus.Server.Wire

/-!
# The service

The handlers of `MsgbusGrpcService` and the handling of delete markers, as
programs over the calls a daemon makes: to its store, its clock and its
broadcast channel, and to its peers.  Each store call is one transaction, so
other tasks may run between any two calls.
-/

namespace Msgbus

inductive Command where
  | store (op : StoreOp)
  | nowMs
  | newMessageId
  /-- `published.send`. -/
  | send (message : StoredMessage)
  | connect (endpoint : String)
  | health (endpoint : String)
  | listHeads (endpoint : String)
  | fetch (endpoint : String) (request : Pb.FetchRequest)
  deriving DecidableEq

/-- What a call is answered with.  A fetch is answered with the items its stream
yields and the status it breaks off with, if it does. -/
def Command.Answer : Command → Type
  | store op => Except MsgbusError op.Result
  | nowMs => UInt64
  | newMessageId => MessageId
  | send _ => Unit
  | connect _ => Except String Unit
  | health _ => Except Status Pb.HealthResponse
  | listHeads _ => Except Status (List Pb.TopicHead)
  | fetch _ _ => Except Status (List Pb.FetchResponse × Option Status)

/-- The store carried out the call; calls to anything else always count. -/
def Command.Succeeds : (c : Command) → c.Answer → Prop
  | store _, answer => ∃ result, answer = Except.ok result
  | _, _ => True

abbrev Server (ε α : Type) := Program Command Command.Answer ε α

open Program

section Calls

variable {ε : Type}

def nowMs : Server ε UInt64 := .call .nowMs .ret

def newMessageId : Server ε MessageId := .call .newMessageId .ret

def send (message : StoredMessage) : Server ε Unit := .call (.send message) .ret

end Calls

def callStore (op : StoreOp) : Server MsgbusError op.Result :=
  .call (.store op) fun answer => ofExcept answer

def callStoreStatus (op : StoreOp) : Server Status op.Result :=
  (callStore op).mapError statusFromError

def deleteTopic : Topic := ⟨"$msgbus.delete"⟩

/-! ## Handlers -/

def requestOrigin (node : NodeId) (origin : Option Pb.NodeId) : Except Status NodeId :=
  match origin with
  | some origin => do
      let requested ← coreNode origin
      if requested.isEmpty then return node else return requested
  | none => .ok node

def ownedOrigin (node : NodeId) (origin : Option Pb.NodeId) : Except Status NodeId := do
  let origin ← requestOrigin node origin
  if origin = node then
    return origin
  else
    throw (.permissionDenied "writes must use the local daemon origin")

def ensureApplicationTopic (topic : Topic) : Except Status Unit :=
  if topic = deleteTopic then
    .error (.permissionDenied "$msgbus.delete is reserved for delete markers")
  else
    .ok ()

/-- The topic and origin of a write: the handlers that write check them alike. -/
def writeTarget (node : NodeId) (topic : String) (origin : Option Pb.NodeId) :
    Except Status (Topic × NodeId) := do
  let topic ← (Topic.new topic).mapError statusFromError
  ensureApplicationTopic topic
  let origin ← ownedOrigin node origin
  return (topic, origin)

/-- `publish`: append, then broadcast what was stored. -/
def publish (node : NodeId) (request : Pb.PublishRequest) : Server Status Pb.MessageEnvelope := do
  let (topic, origin) ← ofExcept (writeTarget node request.topic request.origin)
  let id ← newMessageId
  let stored : StoredMessage ← callStoreStatus
    (.appendMessage ⟨id, topic, origin, request.payload, request.headers⟩)
  send stored
  return protoMessage stored

def deleteRange (node : NodeId) (request : Pb.DeleteRangeRequest) : Server Status UInt64 := do
  let (topic, origin) ← ofExcept (writeTarget node request.topic request.origin)
  let controlTopic ← ofExcept ((Topic.new deleteTopic.value).mapError statusFromError)
  let deleted : UInt64 × StoredMessage ← callStoreStatus
    (.tombstoneRangeWithMarker topic origin request.fromHeadId request.toHeadId controlTopic node)
  send deleted.2
  return deleted.1

def enqueueFifo (node : NodeId) (request : Pb.EnqueueFifoRequest) :
    Server Status Pb.FifoMessage := do
  let queue ← ofExcept ((QueueName.new request.queue).mapError statusFromError)
  let (topic, source) ← ofExcept (writeTarget node request.topic request.source)
  let target ← ofExcept (requiredNode request.target (.invalidArgument "target is required"))
  let id ← newMessageId
  let stored : StoredFifoMessage ← callStoreStatus
    (.enqueueFifo ⟨id, queue, topic, source, target, request.payload, request.headers⟩)
  return protoFifo stored

def peekFifo (queue : String) : Server Status Pb.FifoMessage := do
  let queue ← ofExcept ((QueueName.new queue).mapError statusFromError)
  let front : Option StoredFifoMessage ← callStoreStatus (.peekFifo queue)
  match front with
  | some message => return protoFifo message
  | none => .fail (.notFound "fifo queue is empty")

/-- `fifo_ack_parts` and `reject_fifo_parts`. -/
def fifoFrontParts (request : Pb.FifoFrontRequest) : Except Status (QueueName × MessageId) := do
  let queue ← (QueueName.new request.queue).mapError statusFromError
  let messageId ← (MessageId.fromString request.messageId).mapError statusFromError
  return (queue, messageId)

def ackFifo (request : Pb.FifoFrontRequest) : Server Status Bool := do
  let (queue, messageId) ← ofExcept (fifoFrontParts request)
  let accepted : Bool ← callStoreStatus (.ackFifo queue messageId)
  return accepted

def rejectFifo (request : Pb.FifoFrontRequest) : Server Status Bool := do
  let (queue, messageId) ← ofExcept (fifoFrontParts request)
  let accepted : Bool ← callStoreStatus (.rejectFifo queue messageId)
  return accepted

def fetch (node : NodeId) (request : Pb.FetchRequest) : Server Status (List Pb.FetchResponse) := do
  let topic ← ofExcept ((Topic.new request.topic).mapError statusFromError)
  let origin ← ofExcept (requestOrigin node request.origin)
  let messages : List StoredMessage ← callStoreStatus
    (.fetchMessages ⟨topic, origin, max request.fromHeadId 1, request.limit⟩)
  return messages.map fun message => ⟨some (protoMessage message)⟩

def listHeads : Server Status (List Pb.TopicHead) := do
  let heads : List TopicHead ← callStoreStatus .listHeads
  return heads.map protoTopicHead

def health (node : NodeId) : Pb.HealthResponse := ⟨"SERVING", some (protoNode node)⟩

/-! ## Delete markers -/

variable [Formats]

/-- The range a stored message asks to delete: `none` for what is not a live
delete marker, an error for a marker that cannot be honoured. -/
def controlRange (message : StoredMessage) : Except Status (Option TombstoneRange) :=
  if message.topic ≠ deleteTopic ∨ message.deleted = true then
    .ok none
  else
    match Formats.tombstoneRange.fromSlice message.payload with
    | .error err => .error (.invalidArgument ("invalid tombstone payload: " ++ err))
    | .ok tombstone =>
        if message.origin ≠ tombstone.origin then
          .error (.permissionDenied "delete marker origin must match tombstone origin")
        else
          .ok (some tombstone)

def TombstoneRange.op (tombstone : TombstoneRange) : StoreOp :=
  .tombstoneRange tombstone.topic tombstone.origin tombstone.fromHeadId tombstone.toHeadId

def applyControlMessage (message : StoredMessage) : Server Status Unit :=
  match controlRange message with
  | .error status => .fail status
  | .ok none => .ret ()
  | .ok (some tombstone) => do
      let _ ← callStoreStatus tombstone.op
      return ()

/-- The `for` loop over one batch of `replay_control_messages`; it returns where
the next batch starts. -/
def applyBatch (fromHeadId : UInt64) : List StoredMessage → Server Status UInt64
  | [] => .ret fromHeadId
  | message :: rest => do
      applyControlMessage message
      applyBatch (message.headId.saturatingAdd 1) rest

/-- The `while` loop of `replay_control_messages` over one log, for at most
`fuel` rounds; `none` says that they were not enough. -/
def replayLog (head : TopicHead) : (fuel : Nat) → (fromHeadId : UInt64) →
    Server Status (Option Unit)
  | 0, _ => .ret none
  | fuel + 1, fromHeadId =>
      if fromHeadId ≤ head.headId then do
        let messages : List StoredMessage ← callStoreStatus
          (.fetchMessages ⟨head.topic, head.origin, fromHeadId, 1000⟩)
        if messages.isEmpty then
          return some ()
        else do
          let next ← applyBatch fromHeadId messages
          replayLog head fuel next
      else
        .ret (some ())

def replayLogs (fuel : Nat) : List TopicHead → Server Status (Option Unit)
  | [] => .ret (some ())
  | head :: rest => do
      match ← replayLog head fuel 1 with
      | none => return none
      | some () => replayLogs fuel rest

def replayControlMessages (fuel : Nat) : Server Status (Option Unit) := do
  let heads : List TopicHead ← callStoreStatus .listHeads
  replayLogs fuel (heads.filter fun head => head.topic = deleteTopic)

end Msgbus

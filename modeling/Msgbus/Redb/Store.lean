import Msgbus.Redb.Keys
import Msgbus.Store

/-!
# The redb backend

`RedbStore`: six tables with text keys.  A write transaction is a value of the
tables that is kept when the method commits and dropped when it returns an
error.
-/

namespace Msgbus

structure Redb where
  messages : OrderedTable String ByteArray
  heads : OrderedTable String UInt64
  fifoMessages : OrderedTable String ByteArray
  fifoSequences : OrderedTable String UInt64
  tombstones : OrderedTable String ByteArray
  peerSync : OrderedTable String ByteArray

namespace Redb

variable [Formats]

def openEmpty : Redb := ⟨.empty, .empty, .empty, .empty, .empty, .empty⟩

def currentHeadInTxn (txn : Redb) (topic : Topic) (origin : NodeId) : UInt64 :=
  (txn.heads.get (headKey topic origin)).getD 0

/-- The scan of `apply_tombstone_markers`: stop at the first key of another
log or at the first range that covers the message. -/
def applyTombstoneScan (start : String) (message : StoredMessage) :
    List (String × ByteArray) → Except MsgbusError StoredMessage
  | [] => .ok message
  | (key, value) :: rest =>
      if startsWith key start = false then .ok message
      else do
        let tombstone ← Formats.tombstoneRange.decode value
        if tombstone.fromHeadId ≤ message.headId ∧ message.headId ≤ tombstone.toHeadId then
          return { message with deleted := true }
        else
          applyTombstoneScan start message rest

def applyTombstoneMarkers (txn : Redb) (message : StoredMessage) :
    Except MsgbusError StoredMessage :=
  if message.deleted then .ok message
  else
    let start := tombstonePrefix message.topic message.origin
    applyTombstoneScan start message (txn.tombstones.rangeFrom start)

def appendMessageInTxn (txn : Redb) (message : NewMessage) (now : UInt64) :
    Except MsgbusError (StoredMessage × Redb) := do
  let key := headKey message.topic message.origin
  let current := (txn.heads.get key).getD 0
  let next := current.saturatingAdd 1
  let txn := { txn with heads := txn.heads.insert key next }
  let stored : StoredMessage :=
    { id := message.id
      topic := message.topic
      origin := message.origin
      headId := next
      payload := message.payload
      headers := message.headers
      createdAtMs := now
      deleted := false }
  let stored ← applyTombstoneMarkers txn stored
  let key := messageKey stored.topic stored.origin stored.headId
  return (stored,
    { txn with messages := txn.messages.insert key (Formats.storedMessage.encode stored) })

/-- The scan of `tombstone_range_in_txn`: the rows to rewrite, with their flag
raised. -/
def tombstoneScan (start : String) (last : HeadId) :
    List (String × ByteArray) → Except MsgbusError (List (String × ByteArray))
  | [] => .ok []
  | (key, value) :: rest =>
      if startsWith key start = false then .ok []
      else do
        let message ← Formats.storedMessage.decode value
        if last < message.headId then
          return []
        else
          let updates ← tombstoneScan start last rest
          if message.deleted then
            return updates
          else
            return (key, Formats.storedMessage.encode { message with deleted := true }) :: updates

def writeUpdates (messages : OrderedTable String ByteArray)
    (updates : List (String × ByteArray)) : UInt64 × OrderedTable String ByteArray :=
  updates.foldl
    (fun acc update => (acc.1.saturatingAdd 1, acc.2.insert update.1 update.2)) (0, messages)

def tombstoneRangeInTxn (txn : Redb) (topic : Topic) (origin : NodeId)
    (first last : HeadId) (createdAtMs : UInt64) : Except MsgbusError (UInt64 × Redb) := do
  let start := messagePrefix topic origin
  let updates ← tombstoneScan start last
    (txn.messages.rangeFrom (messageKey topic origin first))
  let written := writeUpdates txn.messages updates
  let tombstone : TombstoneRange := ⟨topic, origin, first, last, createdAtMs⟩
  let key := tombstoneKey topic origin first last
  return (written.1,
    { txn with
      messages := written.2
      tombstones := txn.tombstones.insert key (Formats.tombstoneRange.encode tombstone) })

def appendMessage (s : Redb) (message : NewMessage) (now : UInt64) :
    Except MsgbusError (StoredMessage × Redb) :=
  appendMessageInTxn s message now

def fetchScan (start : String) (limit : Nat) (out : List StoredMessage) :
    List (String × ByteArray) → Except MsgbusError (List StoredMessage)
  | [] => .ok out
  | (key, value) :: rest =>
      if startsWith key start = false then .ok out
      else do
        let message ← Formats.storedMessage.decode value
        let out := out ++ [message]
        if limit ≤ out.length then
          return out
        else
          fetchScan start limit out rest

def fetchMessages (s : Redb) (query : FetchQuery) : Except MsgbusError (List StoredMessage) :=
  fetchScan (messagePrefix query.topic query.origin) (effectiveLimit query.limit) []
    (s.messages.rangeFrom (messageKey query.topic query.origin query.fromHeadId))

def getHead (s : Redb) (topic : Topic) (origin : NodeId) :
    Except MsgbusError (Option HeadId) :=
  .ok (s.heads.get (headKey topic origin))

def listHead (s : Redb) (key : String) (headId : HeadId) : Except MsgbusError TopicHead := do
  let (topicPart, originPart) ← headKeyParts key
  match s.messages.get (rawMessageKey topicPart originPart headId) with
  | none => throw (.storage ("head entry has no message: " ++ key))
  | some value =>
      let message ← Formats.storedMessage.decode value
      return ⟨message.topic, message.origin, headId⟩

def listHeads (s : Redb) : Except MsgbusError (List TopicHead) :=
  (s.heads.rangeFrom "").mapM fun (key, headId) => listHead s key headId

def putReplicatedMessage (s : Redb) (message : StoredMessage) :
    Except MsgbusError (ReplicateResult × Redb) := do
  if message.headId = 0 then
    throw (.invalidArgument "replicated message head_id must be greater than zero")
  let message ← applyTombstoneMarkers s message
  let key := messageKey message.topic message.origin message.headId
  let currentHead := currentHeadInTxn s message.topic message.origin
  let written := s.messages.insert key (Formats.storedMessage.encode message)
  -- the head row is raised in the same transaction when the message is past it
  let finish : Redb :=
    { s with
      messages := written
      heads :=
        if (s.heads.get (headKey message.topic message.origin)).getD 0 < message.headId then
          s.heads.insert (headKey message.topic message.origin) message.headId
        else s.heads }
  match s.messages.get key with
  | some value =>
      let existing ← Formats.storedMessage.decode value
      if existing = message then
        return (.alreadyPresent, s)
      else if sameMessageExceptDeleted existing message && message.deleted then
        return (.inserted, finish)
      else
        throw (.conflict ("message conflict at topic=" ++ message.topic.value ++ " origin=" ++
          message.origin.key ++ " head_id=" ++ toString message.headId))
  | none =>
      if currentHead.saturatingAdd 1 < message.headId then
        throw (.invalidArgument ("replicated message would create a gap at topic=" ++
          message.topic.value ++ " origin=" ++ message.origin.key ++ " local_head=" ++
          toString currentHead ++ " incoming_head=" ++ toString message.headId))
      else
        return (.inserted, finish)

def tombstoneRange (s : Redb) (topic : Topic) (origin : NodeId) (first last : HeadId)
    (now : UInt64) : Except MsgbusError (UInt64 × Redb) :=
  if last < first then
    .error (.invalidArgument "from_head_id must be <= to_head_id")
  else
    tombstoneRangeInTxn s topic origin first last now

def tombstoneRangeWithMarker (s : Redb) (topic : Topic) (origin : NodeId)
    (first last : HeadId) (markerTopic : Topic) (markerOrigin : NodeId) (env : CallEnv) :
    Except MsgbusError ((UInt64 × StoredMessage) × Redb) := do
  if last < first then
    throw (.invalidArgument "from_head_id must be <= to_head_id")
  let createdAtMs := env.now
  let (changed, txn) ← tombstoneRangeInTxn s topic origin first last createdAtMs
  let tombstone : TombstoneRange := ⟨topic, origin, first, last, createdAtMs⟩
  let (marker, txn) ← appendMessageInTxn txn
    ⟨env.id, markerTopic, markerOrigin, Formats.tombstoneRange.encode tombstone, .empty⟩
    env.later
  return ((changed, marker), txn)

def enqueueFifo (s : Redb) (message : NewFifoMessage) (now : UInt64) :
    Except MsgbusError (StoredFifoMessage × Redb) :=
  let sequenceKey := fifoSequenceKey message.queue
  let current := (s.fifoSequences.get sequenceKey).getD 0
  let next := current.saturatingAdd 1
  let stored : StoredFifoMessage :=
    { id := message.id
      queue := message.queue
      topic := message.topic
      source := message.source
      target := message.target
      payload := message.payload
      headers := message.headers
      createdAtMs := now
      sequence := next
      attempts := 0 }
  let key := fifoMessageKey stored.queue stored.sequence
  .ok (stored,
    { s with
      fifoSequences := s.fifoSequences.insert sequenceKey next
      fifoMessages := s.fifoMessages.insert key (Formats.storedFifoMessage.encode stored) })

def peekFifo (s : Redb) (queue : QueueName) : Except MsgbusError (Option StoredFifoMessage) :=
  match (s.fifoMessages.rangeFrom (fifoPrefix queue)).head? with
  | some (key, value) =>
      if startsWith key (fifoPrefix queue) then
        (Formats.storedFifoMessage.decode value).map some
      else
        .ok none
  | none => .ok none

/-- The front of a queue with its key, as `update_fifo_front` reads it. -/
def frontInTxn (s : Redb) (queue : QueueName) :
    Except MsgbusError (Option (String × StoredFifoMessage)) :=
  match (s.fifoMessages.rangeFrom (fifoPrefix queue)).head? with
  | some (key, value) =>
      if startsWith key (fifoPrefix queue) then
        (Formats.storedFifoMessage.decode value).map fun message => some (key, message)
      else
        .ok none
  | none => .ok none

def updateFifoFront (s : Redb) (queue : QueueName) (messageId : MessageId)
    (action : FifoFrontAction) : Except MsgbusError (Bool × Redb) := do
  match ← frontInTxn s queue with
  | some (key, message) =>
      if message.id = messageId then
        match action with
        | .ack => return (true, { s with fifoMessages := s.fifoMessages.erase key })
        | .reject =>
            let message := { message with attempts := message.attempts.saturatingAdd 1 }
            return (true,
              { s with
                fifoMessages :=
                  s.fifoMessages.insert key (Formats.storedFifoMessage.encode message) })
      else
        return (false, s)
  | none => return (false, s)

def ackFifo (s : Redb) (queue : QueueName) (messageId : MessageId) :
    Except MsgbusError (Bool × Redb) :=
  updateFifoFront s queue messageId .ack

def rejectFifo (s : Redb) (queue : QueueName) (messageId : MessageId) :
    Except MsgbusError (Bool × Redb) :=
  updateFifoFront s queue messageId .reject

def previousSyncState (s : Redb) (key : String) : Except MsgbusError (Option PeerSyncState) :=
  match s.peerSync.get key with
  | some value => (Formats.peerSyncState.decode value).map some
  | none => .ok none

def recordPeerSyncState (s : Redb) (state : PeerSyncState) :
    Except MsgbusError (Unit × Redb) := do
  let key := peerSyncKey state
  let previous ← previousSyncState s key
  let state := countFailures state previous
  return ((), { s with peerSync := s.peerSync.insert key (Formats.peerSyncState.encode state) })

def listPeerSyncStates (s : Redb) : Except MsgbusError (List PeerSyncState) :=
  (s.peerSync.rangeFrom "").mapM fun (_, value) => Formats.peerSyncState.decode value

instance : MsgbusStore Redb where
  empty := openEmpty
  appendMessage := appendMessage
  fetchMessages := fetchMessages
  getHead := getHead
  listHeads := listHeads
  putReplicatedMessage := putReplicatedMessage
  tombstoneRange := tombstoneRange
  tombstoneRangeWithMarker := tombstoneRangeWithMarker
  enqueueFifo := enqueueFifo
  peekFifo := peekFifo
  ackFifo := ackFifo
  rejectFifo := rejectFifo
  recordPeerSyncState := recordPeerSyncState
  listPeerSyncStates := listPeerSyncStates

end Redb

end Msgbus

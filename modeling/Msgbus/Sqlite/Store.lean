import Msgbus.Formats
import Msgbus.Store
import Mathlib.Data.Prod.Lex

/-!
# The SQLite backend

`SqliteStore`: six tables keyed by their primary keys.  Every `ORDER BY` of the
backend follows a primary key, so a query is a filter of the rows in key order.
Columns of type `INTEGER` are `Int`; a `u64` is checked to fit `i64` on the way
in and to be non-negative on the way out.  A transaction is a value of the
tables that is dropped when the method returns an error.
-/

namespace Msgbus

def i64Max : Nat := 2 ^ 63 - 1

namespace Sqlite

structure HeadPk where
  topic : String
  originKey : String
  deriving DecidableEq

structure MessagePk where
  topic : String
  originKey : String
  headId : Int
  deriving DecidableEq

structure TombstonePk where
  topic : String
  originKey : String
  fromHeadId : Int
  toHeadId : Int
  deriving DecidableEq

structure FifoPk where
  queue : String
  sequence : Int
  deriving DecidableEq

structure PeerSyncPk where
  peer : String
  topic : String
  originKey : String
  deriving DecidableEq

instance : LinearOrder HeadPk :=
  LinearOrder.lift' (fun k => toLex (k.topic, k.originKey))
    (by rintro ⟨⟩ ⟨⟩ h; simpa using h)

instance : LinearOrder MessagePk :=
  LinearOrder.lift' (fun k => toLex (k.topic, toLex (k.originKey, k.headId)))
    (by rintro ⟨⟩ ⟨⟩ h; simpa using h)

instance : LinearOrder TombstonePk :=
  LinearOrder.lift'
    (fun k => toLex (k.topic, toLex (k.originKey, toLex (k.fromHeadId, k.toHeadId))))
    (by rintro ⟨⟩ ⟨⟩ h; simpa using h)

instance : LinearOrder FifoPk :=
  LinearOrder.lift' (fun k => toLex (k.queue, k.sequence))
    (by rintro ⟨⟩ ⟨⟩ h; simpa using h)

instance : LinearOrder PeerSyncPk :=
  LinearOrder.lift' (fun k => toLex (k.peer, toLex (k.topic, k.originKey)))
    (by rintro ⟨⟩ ⟨⟩ h; simpa using h)

structure MessageRow where
  originJson : String
  id : String
  payload : ByteArray
  headersJson : String
  createdAtMs : Int
  deleted : Bool
  deriving DecidableEq

structure TombstoneRow where
  createdAtMs : Int
  rangeJson : String
  deriving DecidableEq

structure FifoRow where
  id : String
  topic : String
  sourceJson : String
  targetJson : String
  payload : ByteArray
  headersJson : String
  createdAtMs : Int
  attempts : UInt32
  deriving DecidableEq

end Sqlite

open Sqlite

structure Sqlite where
  heads : OrderedTable HeadPk Int
  messages : OrderedTable MessagePk MessageRow
  tombstones : OrderedTable TombstonePk TombstoneRow
  fifoSequences : OrderedTable String Int
  fifoMessages : OrderedTable FifoPk FifoRow
  peerSyncStates : OrderedTable PeerSyncPk String

namespace Sqlite

variable [Formats]

def openEmpty : Sqlite := ⟨.empty, .empty, .empty, .empty, .empty, .empty⟩

def u64ToI64 (value : UInt64) : Except MsgbusError Int :=
  if value.toNat ≤ i64Max then .ok value.toNat
  else .error (.invalidArgument (toString value ++ " exceeds i64"))

def i64ToU64 (value : Int) : Except MsgbusError UInt64 :=
  if 0 ≤ value then .ok (UInt64.ofNat value.toNat)
  else .error (.storage ("negative integer stored in sqlite: " ++ toString value))

/-- `sql_from_msgbus` followed by `storage_err`: what a row mapper's error
becomes. -/
def storageErr (err : MsgbusError) : MsgbusError :=
  .storage ("Conversion error from type Text at index: 0, " ++ err.toText)

def rowToMessage (pk : MessagePk) (row : MessageRow) : Except MsgbusError StoredMessage :=
  Except.mapError storageErr do
    let headId ← i64ToU64 pk.headId
    let createdAtMs ← i64ToU64 row.createdAtMs
    let id ← MessageId.fromString row.id
    let topic ← Topic.new pk.topic
    let origin ← Formats.nodeId.decodeJson row.originJson
    let headers ← Formats.headers.decodeJson row.headersJson
    return ⟨id, topic, origin, headId, row.payload, headers, createdAtMs, row.deleted⟩

def rowToFifo (pk : FifoPk) (row : FifoRow) : Except MsgbusError StoredFifoMessage :=
  Except.mapError storageErr do
    let sequence ← i64ToU64 pk.sequence
    let createdAtMs ← i64ToU64 row.createdAtMs
    let id ← MessageId.fromString row.id
    let queue ← QueueName.new pk.queue
    let topic ← Topic.new row.topic
    let source ← Formats.nodeId.decodeJson row.sourceJson
    let target ← Formats.nodeId.decodeJson row.targetJson
    let headers ← Formats.headers.decodeJson row.headersJson
    return ⟨id, queue, topic, source, target, row.payload, headers, createdAtMs, sequence,
      row.attempts⟩

/-- `SELECT head_id FROM heads` for one log, with `.map(i64_to_u64)`. -/
def selectHead (tx : Sqlite) (topic : Topic) (origin : NodeId) :
    Except MsgbusError (Option UInt64) :=
  match tx.heads.get ⟨topic.value, origin.key⟩ with
  | some head => (i64ToU64 head).map some
  | none => .ok none

/-- `INSERT INTO messages`, with its primary key and the unique index on `id`. -/
def insertMessage (tx : Sqlite) (pk : MessagePk) (row : MessageRow) :
    Except MsgbusError Sqlite :=
  if (tx.messages.get pk).isSome then
    .error (.storage
      "UNIQUE constraint failed: messages.topic, messages.origin_key, messages.head_id")
  else if tx.messages.entries.any (fun entry => entry.2.id = row.id) then
    .error (.storage "UNIQUE constraint failed: messages.id")
  else
    .ok { tx with messages := tx.messages.insert pk row }

def messageRow (message : StoredMessage) : Except MsgbusError (MessagePk × MessageRow) := do
  let headId ← u64ToI64 message.headId
  let createdAtMs ← u64ToI64 message.createdAtMs
  return (⟨message.topic.value, message.origin.key, headId⟩,
    ⟨Formats.nodeId.toStr message.origin, message.id.value, message.payload,
      Formats.headers.toStr message.headers, createdAtMs, message.deleted⟩)

def applyTombstoneMarkers (tx : Sqlite) (message : StoredMessage) :
    Except MsgbusError StoredMessage :=
  if message.deleted then .ok message
  else do
    let headId ← u64ToI64 message.headId
    let applies := tx.tombstones.entries.any fun entry =>
      entry.1.topic = message.topic.value && entry.1.originKey = message.origin.key &&
        entry.1.fromHeadId ≤ headId && headId ≤ entry.1.toHeadId
    return if applies then { message with deleted := true } else message

def appendMessageInTx (tx : Sqlite) (message : NewMessage) (now : UInt64) :
    Except MsgbusError (StoredMessage × Sqlite) := do
  let current := (← selectHead tx message.topic message.origin).getD 0
  let next := current.saturatingAdd 1
  let nextHead ← u64ToI64 next
  let tx := { tx with
    heads := tx.heads.insert ⟨message.topic.value, message.origin.key⟩ nextHead }
  let stored : StoredMessage :=
    { id := message.id
      topic := message.topic
      origin := message.origin
      headId := next
      payload := message.payload
      headers := message.headers
      createdAtMs := now
      deleted := false }
  let stored ← applyTombstoneMarkers tx stored
  let (pk, row) ← messageRow stored
  let tx ← insertMessage tx pk row
  return (stored, tx)

def inTombstoneRange (topic : Topic) (origin : NodeId) (first last : Int) (pk : MessagePk)
    (row : MessageRow) : Bool :=
  pk.topic = topic.value && pk.originKey = origin.key && first ≤ pk.headId &&
    pk.headId ≤ last && row.deleted = false

def tombstoneRangeInTx (tx : Sqlite) (topic : Topic) (origin : NodeId)
    (first last : HeadId) (createdAtMs : UInt64) : Except MsgbusError (UInt64 × Sqlite) := do
  let firstHead ← u64ToI64 first
  let lastHead ← u64ToI64 last
  let hit := inTombstoneRange topic origin firstHead lastHead
  let changed := (tx.messages.entries.filter fun entry => hit entry.1 entry.2).length
  let messages := tx.messages.mapValues fun pk row =>
    if hit pk row then { row with deleted := true } else row
  let createdAt ← u64ToI64 createdAtMs
  let tombstone : TombstoneRange := ⟨topic, origin, first, last, createdAtMs⟩
  let pk : TombstonePk := ⟨topic.value, origin.key, firstHead, lastHead⟩
  -- `INSERT OR IGNORE` keeps the row that is already there
  let tombstones :=
    if (tx.tombstones.get pk).isSome then tx.tombstones
    else tx.tombstones.insert pk ⟨createdAt, Formats.tombstoneRange.toStr tombstone⟩
  return (UInt64.ofNat changed, { tx with messages := messages, tombstones := tombstones })

def appendMessage (s : Sqlite) (message : NewMessage) (now : UInt64) :
    Except MsgbusError (StoredMessage × Sqlite) :=
  appendMessageInTx s message now

def fetchMessages (s : Sqlite) (query : FetchQuery) :
    Except MsgbusError (List StoredMessage) := do
  let first ← u64ToI64 query.fromHeadId
  let rows := s.messages.entries.filter fun entry =>
    entry.1.topic = query.topic.value && entry.1.originKey = query.origin.key &&
      first ≤ entry.1.headId
  (rows.take (effectiveLimit query.limit)).mapM fun (pk, row) => rowToMessage pk row

def getHead (s : Sqlite) (topic : Topic) (origin : NodeId) :
    Except MsgbusError (Option HeadId) :=
  selectHead s topic origin

def rowToHead (pk : HeadPk) (head : Int) (row : MessageRow) : Except MsgbusError TopicHead :=
  Except.mapError storageErr do
    let headId ← i64ToU64 head
    let topic ← Topic.new pk.topic
    let origin ← Formats.nodeId.decodeJson row.originJson
    return ⟨topic, origin, headId⟩

/-- `list_heads`; the join drops a head that has no message. -/
def listHeads (s : Sqlite) : Except MsgbusError (List TopicHead) :=
  let rows := s.heads.entries.filterMap fun (pk, head) =>
    (s.messages.get ⟨pk.topic, pk.originKey, head⟩).map fun row => (pk, head, row)
  rows.mapM fun (pk, head, row) => rowToHead pk head row

/-- `put_replicated_message` when there is a message at the position. -/
def putExisting (s : Sqlite) (pk : MessagePk) (existing message : StoredMessage) :
    Except MsgbusError (ReplicateResult × Sqlite) :=
  if existing = message then
    .ok (.alreadyPresent, s)
  else if sameMessageExceptDeleted existing message && message.deleted then
    .ok (.inserted,
      { s with messages := s.messages.mapValues fun pk' row =>
          if pk' = pk then { row with deleted := true } else row })
  else
    .error (.conflict ("message conflict at topic=" ++ message.topic.value ++ " origin=" ++
      message.origin.key ++ " head_id=" ++ toString message.headId))

def putFresh (s : Sqlite) (message : StoredMessage) (headId : Int) :
    Except MsgbusError (ReplicateResult × Sqlite) := do
  let current := (← selectHead s message.topic message.origin).getD 0
  if current.saturatingAdd 1 < message.headId then
    .error (.invalidArgument ("replicated message would create a gap at topic=" ++
      message.topic.value ++ " origin=" ++ message.origin.key ++ " local_head=" ++
      toString current ++ " incoming_head=" ++ toString message.headId))
  else
    let (pk, row) ← messageRow message
    let tx ← insertMessage s pk row
    if current < message.headId then
      return (.inserted,
        { tx with heads := tx.heads.insert ⟨message.topic.value, message.origin.key⟩ headId })
    else
      return (.inserted, tx)

def putReplicatedMessage (s : Sqlite) (message : StoredMessage) :
    Except MsgbusError (ReplicateResult × Sqlite) := do
  if message.headId = 0 then
    throw (.invalidArgument "replicated message head_id must be greater than zero")
  let message ← applyTombstoneMarkers s message
  let headId ← u64ToI64 message.headId
  let pk : MessagePk := ⟨message.topic.value, message.origin.key, headId⟩
  match s.messages.get pk with
  | some row =>
      let existing ← rowToMessage pk row
      putExisting s pk existing message
  | none => putFresh s message headId

def tombstoneRange (s : Sqlite) (topic : Topic) (origin : NodeId) (first last : HeadId)
    (now : UInt64) : Except MsgbusError (UInt64 × Sqlite) :=
  if last < first then
    .error (.invalidArgument "from_head_id must be <= to_head_id")
  else
    tombstoneRangeInTx s topic origin first last now

def tombstoneRangeWithMarker (s : Sqlite) (topic : Topic) (origin : NodeId)
    (first last : HeadId) (markerTopic : Topic) (markerOrigin : NodeId) (env : CallEnv) :
    Except MsgbusError ((UInt64 × StoredMessage) × Sqlite) := do
  if last < first then
    throw (.invalidArgument "from_head_id must be <= to_head_id")
  let createdAtMs := env.now
  let (changed, tx) ← tombstoneRangeInTx s topic origin first last createdAtMs
  let tombstone : TombstoneRange := ⟨topic, origin, first, last, createdAtMs⟩
  let (marker, tx) ← appendMessageInTx tx
    ⟨env.id, markerTopic, markerOrigin, Formats.tombstoneRange.encode tombstone, .empty⟩
    env.later
  return ((changed, marker), tx)

/-- `INSERT INTO fifo_messages`, with its primary key and the unique index on
`id`. -/
def insertFifo (tx : Sqlite) (pk : FifoPk) (row : FifoRow) : Except MsgbusError Sqlite :=
  if (tx.fifoMessages.get pk).isSome then
    .error (.storage
      "UNIQUE constraint failed: fifo_messages.queue, fifo_messages.sequence")
  else if tx.fifoMessages.entries.any (fun entry => entry.2.id = row.id) then
    .error (.storage "UNIQUE constraint failed: fifo_messages.id")
  else
    .ok { tx with fifoMessages := tx.fifoMessages.insert pk row }

def selectSequence (s : Sqlite) (queue : QueueName) : Except MsgbusError UInt64 :=
  match s.fifoSequences.get queue.value with
  | some sequence => i64ToU64 sequence
  | none => .ok 0

def enqueueFifo (s : Sqlite) (message : NewFifoMessage) (now : UInt64) :
    Except MsgbusError (StoredFifoMessage × Sqlite) := do
  let current ← selectSequence s message.queue
  let sequence := current.saturatingAdd 1
  let next ← u64ToI64 sequence
  let tx := { s with fifoSequences := s.fifoSequences.insert message.queue.value next }
  let stored : StoredFifoMessage :=
    { id := message.id
      queue := message.queue
      topic := message.topic
      source := message.source
      target := message.target
      payload := message.payload
      headers := message.headers
      createdAtMs := now
      sequence := sequence
      attempts := 0 }
  let createdAtMs ← u64ToI64 stored.createdAtMs
  let tx ← insertFifo tx ⟨stored.queue.value, next⟩
    ⟨stored.id.value, stored.topic.value, Formats.nodeId.toStr stored.source,
      Formats.nodeId.toStr stored.target, stored.payload,
      Formats.headers.toStr stored.headers, createdAtMs, stored.attempts⟩
  return (stored, tx)

/-- The query both `peek_fifo` and `update_fifo_front` make for the front of a
queue: the row with the least sequence. -/
def selectFront (s : Sqlite) (queue : QueueName) :
    Except MsgbusError (Option StoredFifoMessage) :=
  match (s.fifoMessages.entries.filter fun entry => entry.1.queue = queue.value).head? with
  | some (pk, row) => (rowToFifo pk row).map some
  | none => .ok none

def peekFifo (s : Sqlite) (queue : QueueName) :
    Except MsgbusError (Option StoredFifoMessage) :=
  selectFront s queue

def updateFifoFront (s : Sqlite) (queue : QueueName) (messageId : MessageId)
    (action : FifoFrontAction) : Except MsgbusError (Bool × Sqlite) := do
  match ← selectFront s queue with
  | some message =>
      if message.id = messageId then
        let pk : FifoPk := ⟨queue.value, ← u64ToI64 message.sequence⟩
        match action with
        | .ack => return (true, { s with fifoMessages := s.fifoMessages.erase pk })
        | .reject =>
            let attempts := message.attempts.saturatingAdd 1
            return (true,
              { s with fifoMessages := s.fifoMessages.mapValues fun pk' row =>
                  if pk' = pk then { row with attempts := attempts } else row })
      else
        return (false, s)
  | none => return (false, s)

def ackFifo (s : Sqlite) (queue : QueueName) (messageId : MessageId) :
    Except MsgbusError (Bool × Sqlite) :=
  updateFifoFront s queue messageId .ack

def rejectFifo (s : Sqlite) (queue : QueueName) (messageId : MessageId) :
    Except MsgbusError (Bool × Sqlite) :=
  updateFifoFront s queue messageId .reject

/-- `peer_sync_keys`; a state without topic or origin has an empty string in
their place. -/
def peerSyncKeys (state : PeerSyncState) : String × String :=
  (state.topic.elim "" Topic.value, state.origin.elim "" NodeId.key)

def previousSyncState (s : Sqlite) (pk : PeerSyncPk) :
    Except MsgbusError (Option PeerSyncState) :=
  match s.peerSyncStates.get pk with
  | some value => (Formats.peerSyncState.decodeJson value).map some
  | none => .ok none

def recordPeerSyncState (s : Sqlite) (state : PeerSyncState) :
    Except MsgbusError (Unit × Sqlite) := do
  let pk : PeerSyncPk := ⟨state.peer, (peerSyncKeys state).1, (peerSyncKeys state).2⟩
  let previous ← previousSyncState s pk
  let state := countFailures state previous
  return ((), { s with
    peerSyncStates := s.peerSyncStates.insert pk (Formats.peerSyncState.toStr state) })

def listPeerSyncStates (s : Sqlite) : Except MsgbusError (List PeerSyncState) :=
  s.peerSyncStates.entries.mapM fun (_, value) =>
    Except.mapError storageErr (Formats.peerSyncState.decodeJson value)

instance : MsgbusStore Sqlite where
  empty := openEmpty
  appendMessage := appendMessage
  fetchMessages := fetchMessages
  getHead := getHead
  listHeads := listHeads
  putReplicatedMessage := putReplicatedMessage
  tombstoneRange := tombstoneRange
  tombstoneRangeWithMarker := tombstoneRangeWithMarker
  enqueueFifo := enqueueFifo
  peekFifo := peekFifo
  ackFifo := ackFifo
  rejectFifo := rejectFifo
  recordPeerSyncState := recordPeerSyncState
  listPeerSyncStates := listPeerSyncStates

end Sqlite

end Msgbus

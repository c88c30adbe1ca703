import Msgbus.Lib.ExceptRules
import Msgbus.Lib.OrderedTable
import Msgbus.Lib.Saturating
import Mathlib.Data.String.Basic

/-!
# Domain types

The types of `msgbus-core`: node identities, topics, messages and the errors a
store reports.  Strings are sequences of Unicode scalar values, byte vectors
are `ByteArray`, `u64` and `u32` are the fixed-width words, and a
`BTreeMap<String, String>` is an ordered table.
-/

namespace Msgbus

instance instDecidableEqBytes : DecidableEq ByteArray := ByteArray.instDecidableEq

inductive MsgbusError where
  | invalidArgument (message : String)
  | notFound (message : String)
  | conflict (message : String)
  | storage (message : String)
  | serialization (message : String)
  deriving DecidableEq

inductive ErrorKind where
  | invalidArgument
  | notFound
  | conflict
  | storage
  | serialization
  deriving DecidableEq

namespace MsgbusError

def kind : MsgbusError → ErrorKind
  | invalidArgument _ => .invalidArgument
  | notFound _ => .notFound
  | conflict _ => .conflict
  | storage _ => .storage
  | serialization _ => .serialization

def toText : MsgbusError → String
  | invalidArgument message => "invalid argument: " ++ message
  | notFound message => "not found: " ++ message
  | conflict message => "conflict: " ++ message
  | storage message => "storage error: " ++ message
  | serialization message => "serialization error: " ++ message

end MsgbusError

/-! ## Validation -/

/-- `char::is_whitespace`, the Unicode `White_Space` property. -/
def isWhitespace (c : Char) : Bool :=
  let n := c.toNat
  (0x09 ≤ n && n ≤ 0x0D) || n = 0x20 || n = 0x85 || n = 0xA0 || n = 0x1680 ||
    (0x2000 ≤ n && n ≤ 0x200A) || n = 0x2028 || n = 0x2029 || n = 0x202F ||
    n = 0x205F || n = 0x3000

/-- `value.trim().is_empty()`: nothing is left once the blanks are trimmed. -/
def isBlank (value : String) : Bool := value.toList.all isWhitespace

def validatePart (name value : String) : Except MsgbusError Unit :=
  if isBlank value then
    .error (.invalidArgument (name ++ " is empty"))
  else if value.toList.contains (Char.ofNat 0) then
    .error (.invalidArgument (name ++ " contains NUL byte"))
  else
    .ok ()

def ValidPart (value : String) : Prop :=
  isBlank value = false ∧ value.toList.contains (Char.ofNat 0) = false

instance (value : String) : Decidable (ValidPart value) :=
  inferInstanceAs (Decidable (_ ∧ _))

theorem validatePart_eq_ok {name value : String} :
    validatePart name value = .ok () ↔ ValidPart value := by
  unfold validatePart ValidPart
  cases isBlank value with
  | true => simp
  | false => cases value.toList.contains (Char.ofNat 0) <;> simp

theorem validatePart_bind_eq_ok {α : Type} {name value : String} {a b : α} :
    (validatePart name value >>= fun _ => pure a) = .ok b ↔ ValidPart value ∧ b = a := by
  rw [Except.bind_eq_ok]
  constructor
  · rintro ⟨u, hvalid, hb⟩
    cases hb
    exact ⟨validatePart_eq_ok.mp hvalid, rfl⟩
  · rintro ⟨hvalid, rfl⟩
    exact ⟨(), validatePart_eq_ok.mpr hvalid, rfl⟩

/-! ## Identities -/

/-- `NodeId`.  The fields are public, so a value need not be valid. -/
structure NodeId where
  tenantId : String
  blName : String
  deviceId : String
  deriving DecidableEq

namespace NodeId

def isEmpty (node : NodeId) : Bool :=
  node.tenantId.isEmpty && node.blName.isEmpty && node.deviceId.isEmpty

/-- The three parts joined by `/`; every table of both backends is addressed
through it. -/
def key (node : NodeId) : String :=
  node.tenantId ++ "/" ++ node.blName ++ "/" ++ node.deviceId

def validate (node : NodeId) : Except MsgbusError Unit := do
  validatePart "tenant_id" node.tenantId
  validatePart "bl_name" node.blName
  validatePart "device_id" node.deviceId

def new (tenantId blName deviceId : String) : Except MsgbusError NodeId := do
  let node : NodeId := ⟨tenantId, blName, deviceId⟩
  node.validate
  return node

def fromKey (value : String) : Except MsgbusError NodeId :=
  match value.toList.splitOn '/' with
  | [] => .error (.invalidArgument "node key is missing tenant_id")
  | [_] => .error (.invalidArgument "node key is missing bl_name")
  | [_, _] => .error (.invalidArgument "node key is missing device_id")
  | [tenantId, blName, deviceId] =>
      new (String.ofList tenantId) (String.ofList blName) (String.ofList deviceId)
  | _ => .error (.invalidArgument "node key must have tenant_id/bl_name/device_id")

theorem slash_mem_key (node : NodeId) : '/' ∈ node.key.toList := by
  simp [key, String.toList_append]

end NodeId

/-- `Topic`.  Deserialisation does not run `Topic.new`, so the wrapped string
may be any string. -/
structure Topic where
  value : String
  deriving DecidableEq

def Topic.new (value : String) : Except MsgbusError Topic := do
  validatePart "topic" value
  return ⟨value⟩

structure MessageId where
  value : String
  deriving DecidableEq

def MessageId.fromString (value : String) : Except MsgbusError MessageId := do
  validatePart "message_id" value
  return ⟨value⟩

structure QueueName where
  value : String
  deriving DecidableEq

def QueueName.new (value : String) : Except MsgbusError QueueName := do
  validatePart "queue" value
  return ⟨value⟩

theorem MessageId.value_injective : Function.Injective MessageId.value := by
  rintro ⟨a⟩ ⟨b⟩ h
  exact congrArg MessageId.mk h

theorem Topic.value_injective : Function.Injective Topic.value := by
  rintro ⟨a⟩ ⟨b⟩ h
  exact congrArg Topic.mk h

theorem QueueName.value_injective : Function.Injective QueueName.value := by
  rintro ⟨a⟩ ⟨b⟩ h
  exact congrArg QueueName.mk h

theorem Topic.new_eq_ok {value : String} {topic : Topic} :
    Topic.new value = .ok topic ↔ ValidPart value ∧ topic = ⟨value⟩ :=
  validatePart_bind_eq_ok

theorem MessageId.fromString_eq_ok {value : String} {id : MessageId} :
    MessageId.fromString value = .ok id ↔ ValidPart value ∧ id = ⟨value⟩ :=
  validatePart_bind_eq_ok

theorem QueueName.new_eq_ok {value : String} {queue : QueueName} :
    QueueName.new value = .ok queue ↔ ValidPart value ∧ queue = ⟨value⟩ :=
  validatePart_bind_eq_ok

abbrev HeadId := UInt64

abbrev Headers := OrderedTable String String

/-! ## Messages -/

/-- `NewMessage`; its id has been drawn by `NewMessage::new`. -/
structure NewMessage where
  id : MessageId
  topic : Topic
  origin : NodeId
  payload : ByteArray
  headers : Headers
  deriving DecidableEq

structure StoredMessage where
  id : MessageId
  topic : Topic
  origin : NodeId
  headId : HeadId
  payload : ByteArray
  headers : Headers
  createdAtMs : UInt64
  deleted : Bool
  deriving DecidableEq

structure TopicHead where
  topic : Topic
  origin : NodeId
  headId : HeadId
  deriving DecidableEq

structure PeerSyncState where
  peer : String
  topic : Option Topic
  origin : Option NodeId
  localHead : HeadId
  remoteHead : HeadId
  lastSyncedHead : HeadId
  lastAttemptAtMs : UInt64
  lastSuccessAtMs : UInt64
  consecutiveFailures : UInt32
  lastError : Option String
  deriving DecidableEq

inductive ReplicateResult where
  | inserted
  | alreadyPresent
  deriving DecidableEq

structure FetchQuery where
  topic : Topic
  origin : NodeId
  fromHeadId : HeadId
  limit : UInt32
  deriving DecidableEq

structure TombstoneRange where
  topic : Topic
  origin : NodeId
  fromHeadId : HeadId
  toHeadId : HeadId
  createdAtMs : UInt64
  deriving DecidableEq

structure NewFifoMessage where
  id : MessageId
  queue : QueueName
  topic : Topic
  source : NodeId
  target : NodeId
  payload : ByteArray
  headers : Headers
  deriving DecidableEq

structure StoredFifoMessage where
  id : MessageId
  queue : QueueName
  topic : Topic
  source : NodeId
  target : NodeId
  payload : ByteArray
  headers : Headers
  createdAtMs : UInt64
  sequence : UInt64
  attempts : UInt32
  deriving DecidableEq

/-- The address of a log: a topic and the key of an origin.  Two identities
with one key address the same log. -/
structure LogKey where
  topic : Topic
  origin : String
  deriving DecidableEq

def LogKey.of (topic : Topic) (origin : NodeId) : LogKey := ⟨topic, origin.key⟩

theorem LogKey.of_ne_of_topic {topic topic' : Topic} {origin origin' : NodeId}
    (h : topic ≠ topic') : LogKey.of topic origin ≠ LogKey.of topic' origin' :=
  fun heq => h (congrArg LogKey.topic heq)

def StoredMessage.log (m : StoredMessage) : LogKey := LogKey.of m.topic m.origin

/-- `same_message_except_deleted`, the test both backends make before they
raise the deleted flag of a stored message. -/
def sameMessageExceptDeleted (left right : StoredMessage) : Bool :=
  left.id = right.id && left.topic = right.topic && left.origin = right.origin &&
    left.headId = right.headId && left.payload = right.payload &&
    left.headers = right.headers && left.createdAtMs = right.createdAtMs

def effectiveLimit (limit : UInt32) : Nat :=
  if limit = 0 then 100 else min limit.toNat 10000

theorem effectiveLimit_pos (limit : UInt32) : 0 < effectiveLimit limit := by
  unfold effectiveLimit
  split_ifs with h
  · omega
  · have hpos : limit.toNat ≠ 0 := fun h0 => h (UInt32.toNat_inj.mp h0)
    omega

def StoredMessage.withDeleted (m : StoredMessage) (deleted : Bool) : StoredMessage :=
  { m with deleted := deleted }

theorem StoredMessage.withDeleted_of_eq {m : StoredMessage} {d : Bool} (h : m.deleted = d) :
    m.withDeleted d = m := by
  cases h
  rfl

theorem sameMessageExceptDeleted_iff {left right : StoredMessage} :
    sameMessageExceptDeleted left right = true ↔
      right = left.withDeleted right.deleted := by
  cases left
  cases right
  simp only [sameMessageExceptDeleted, StoredMessage.withDeleted, Bool.and_eq_true,
    decide_eq_true_eq, StoredMessage.mk.injEq]
  grind

end Msgbus

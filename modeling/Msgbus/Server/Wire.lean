import Msgbus.Status

/-!
# Wire types

The protobuf messages of the service and the conversions between them and the
domain types.  A protobuf `map<string, string>` is an ordered table: the server
only ever collects its entries into one.
-/

namespace Msgbus

namespace Pb

structure NodeId where
  tenantId : String
  blName : String
  deviceId : String
  deriving DecidableEq

/-- `msgbus.v1.MessageEnvelope`; a message field may be absent. -/
structure MessageEnvelope where
  id : String
  topic : String
  origin : Option NodeId
  headId : UInt64
  payload : ByteArray
  headers : Headers
  createdAtMs : UInt64
  deleted : Bool
  deriving DecidableEq

structure TopicHead where
  topic : String
  origin : Option NodeId
  headId : UInt64
  deriving DecidableEq

structure PublishRequest where
  topic : String
  origin : Option NodeId
  payload : ByteArray
  headers : Headers
  deriving DecidableEq

structure FetchRequest where
  topic : String
  origin : Option NodeId
  fromHeadId : UInt64
  limit : UInt32
  deriving DecidableEq

structure FetchResponse where
  message : Option MessageEnvelope
  deriving DecidableEq

structure SubscribeRequest where
  topic : String
  origin : Option NodeId
  fromHeadId : UInt64
  replayLimit : UInt32
  deriving DecidableEq

structure DeleteRangeRequest where
  topic : String
  origin : Option NodeId
  fromHeadId : UInt64
  toHeadId : UInt64
  deriving DecidableEq

structure FifoMessage where
  id : String
  queue : String
  topic : String
  source : Option NodeId
  target : Option NodeId
  payload : ByteArray
  headers : Headers
  createdAtMs : UInt64
  sequence : UInt64
  attempts : UInt32
  deriving DecidableEq

structure EnqueueFifoRequest where
  queue : String
  topic : String
  source : Option NodeId
  target : Option NodeId
  payload : ByteArray
  headers : Headers
  deriving DecidableEq

/-- `AckFifoRequest` and `RejectFifoRequest`, which have the same fields. -/
structure FifoFrontRequest where
  queue : String
  messageId : String
  deriving DecidableEq

structure HealthResponse where
  status : String
  node : Option NodeId
  deriving DecidableEq

end Pb

/-- `core_node`: three empty parts stand for no node, anything else is
validated. -/
def coreNode (value : Pb.NodeId) : Except Status NodeId :=
  if value.tenantId.isEmpty && value.blName.isEmpty && value.deviceId.isEmpty then
    .ok ⟨"", "", ""⟩
  else
    (NodeId.new value.tenantId value.blName value.deviceId).mapError statusFromError

def protoNode (value : NodeId) : Pb.NodeId := ⟨value.tenantId, value.blName, value.deviceId⟩

/-- `origin.map(core_node).transpose()?.ok_or_else(..)`. -/
def requiredNode (origin : Option Pb.NodeId) (absent : Status) : Except Status NodeId :=
  match origin with
  | some origin => coreNode origin
  | none => .error absent

def protoMessage (value : StoredMessage) : Pb.MessageEnvelope where
  id := value.id.value
  topic := value.topic.value
  origin := some (protoNode value.origin)
  headId := value.headId
  payload := value.payload
  headers := value.headers
  createdAtMs := value.createdAtMs
  deleted := value.deleted

def coreMessage (value : Pb.MessageEnvelope) : Except Status StoredMessage := do
  let origin ← requiredNode value.origin (.invalidArgument "message origin is required")
  if value.headId = 0 then
    throw (.invalidArgument "message head_id must be greater than zero")
  let id ← (MessageId.fromString value.id).mapError statusFromError
  let topic ← (Topic.new value.topic).mapError statusFromError
  return {
    id := id
    topic := topic
    origin := origin
    headId := value.headId
    payload := value.payload
    headers := value.headers
    createdAtMs := value.createdAtMs
    deleted := value.deleted }

def protoFifo (value : StoredFifoMessage) : Pb.FifoMessage where
  id := value.id.value
  queue := value.queue.value
  topic := value.topic.value
  source := some (protoNode value.source)
  target := some (protoNode value.target)
  payload := value.payload
  headers := value.headers
  createdAtMs := value.createdAtMs
  sequence := value.sequence
  attempts := value.attempts

def protoTopicHead (value : TopicHead) : Pb.TopicHead :=
  ⟨value.topic.value, some (protoNode value.origin), value.headId⟩

def coreTopicHead (value : Pb.TopicHead) : Except Status TopicHead := do
  let origin ← requiredNode value.origin (.invalidArgument "topic head origin is required")
  let topic ← (Topic.new value.topic).mapError statusFromError
  return ⟨topic, origin, value.headId⟩

/-! ## What the conversions let through -/

def NodeId.Valid (node : NodeId) : Prop :=
  ValidPart node.tenantId ∧ ValidPart node.blName ∧ ValidPart node.deviceId

instance (node : NodeId) : Decidable node.Valid := inferInstanceAs (Decidable (_ ∧ _ ∧ _))

theorem NodeId.validate_eq_ok {node : NodeId} : node.validate = .ok () ↔ node.Valid := by
  unfold NodeId.validate NodeId.Valid
  rw [Except.bind_eq_ok, Unique.exists_iff, Except.bind_eq_ok, Unique.exists_iff]
  exact and_congr validatePart_eq_ok (and_congr validatePart_eq_ok validatePart_eq_ok)

theorem NodeId.new_eq_ok {tenantId blName deviceId : String} {node : NodeId} :
    NodeId.new tenantId blName deviceId = .ok node ↔
      node = ⟨tenantId, blName, deviceId⟩ ∧ node.Valid := by
  unfold NodeId.new
  rw [Except.bind_eq_ok]
  constructor
  · rintro ⟨u, hvalid, hnode⟩
    cases hnode
    exact ⟨rfl, NodeId.validate_eq_ok.mp hvalid⟩
  · rintro ⟨rfl, hvalid⟩
    exact ⟨(), NodeId.validate_eq_ok.mpr hvalid, rfl⟩

theorem NodeId.Valid.isEmpty_eq {node : NodeId} (h : node.Valid) : node.isEmpty = false := by
  have htenant : node.tenantId ≠ "" := by
    intro hempty
    have hblank := h.1.1
    rw [hempty] at hblank
    exact absurd hblank (by decide)
  unfold NodeId.isEmpty
  rw [Bool.eq_false_iff.mpr fun hempty => htenant (String.isEmpty_iff.mp hempty)]
  rfl

theorem NodeId.Valid.key_ne_of_isEmpty {node empty : NodeId} (h : node.Valid)
    (hempty : empty.isEmpty = true) : node.key ≠ empty.key := by
  obtain ⟨tenant, bl, device⟩ := empty
  simp only [NodeId.isEmpty, Bool.and_eq_true, String.isEmpty_iff] at hempty
  obtain ⟨⟨rfl, rfl⟩, rfl⟩ := hempty
  have htenant : node.tenantId.toList ≠ [] := by
    intro hnil
    have hblank := h.1.1
    rw [isBlank, hnil] at hblank
    cases hblank
  intro hkey
  have hlength := congrArg (fun key : String => key.toList.length) hkey
  simp only [NodeId.key, String.toList_append, List.length_append] at hlength
  have hpos := List.length_pos_iff.mpr htenant
  simp at hlength
  omega

theorem coreNode_eq_ok {value : Pb.NodeId} {node : NodeId} (h : coreNode value = .ok node) :
    value = protoNode node := by
  obtain ⟨tenant, bl, device⟩ := value
  unfold coreNode at h
  split_ifs at h with hempty
  · simp only [Bool.and_eq_true, String.isEmpty_iff] at hempty
    obtain ⟨⟨htenant, hbl⟩, hdevice⟩ := hempty
    cases h
    subst htenant hbl hdevice
    rfl
  · rw [(NodeId.new_eq_ok.mp (Except.mapError_eq_ok.mp h)).1]
    rfl

theorem coreNode_protoNode {node : NodeId} (h : node.Valid ∨ node.isEmpty = true) :
    coreNode (protoNode node) = .ok node := by
  unfold coreNode
  rcases h with hvalid | hempty
  · have hempty : (node.tenantId.isEmpty && node.blName.isEmpty && node.deviceId.isEmpty) = false :=
      hvalid.isEmpty_eq
    have hnew : NodeId.new node.tenantId node.blName node.deviceId = .ok node :=
      NodeId.new_eq_ok.mpr ⟨rfl, hvalid⟩
    simp only [protoNode, hempty, hnew]
    rfl
  · have hparts : (node.tenantId.isEmpty && node.blName.isEmpty && node.deviceId.isEmpty) = true :=
      hempty
    refine (if_pos hparts).trans ?_
    simp only [Bool.and_eq_true, String.isEmpty_iff] at hparts
    obtain ⟨⟨htenant, hbl⟩, hdevice⟩ := hparts
    cases node
    subst htenant hbl hdevice
    rfl

theorem protoNode_injective {a b : NodeId} (h : protoNode a = protoNode b) : a = b := by
  cases a
  cases b
  cases h
  rfl

theorem requiredNode_some {node node' : NodeId} {absent : Status}
    (h : requiredNode (some (protoNode node)) absent = .ok node') : node' = node :=
  (protoNode_injective (coreNode_eq_ok h)).symm

/-- A message that survives the wire is the message that was sent. -/
theorem coreMessage_protoMessage_eq {m m' : StoredMessage}
    (h : coreMessage (protoMessage m) = .ok m') : m' = m := by
  unfold coreMessage at h
  obtain ⟨origin, horigin, h⟩ := Except.bind_eq_ok.mp h
  split_ifs at h with hzero
  · cases h
  obtain ⟨id, hid, h⟩ := Except.bind_eq_ok.mp h
  obtain ⟨topic, htopic, h⟩ := Except.bind_eq_ok.mp h
  cases h
  have horigin' : origin = m.origin := requiredNode_some horigin
  have hid' := (MessageId.fromString_eq_ok.mp (Except.mapError_eq_ok.mp hid)).2
  have htopic' := (Topic.new_eq_ok.mp (Except.mapError_eq_ok.mp htopic)).2
  subst horigin' hid' htopic'
  rfl

theorem coreMessage_protoMessage {m : StoredMessage}
    (horigin : m.origin.Valid ∨ m.origin.isEmpty = true)
    (hhead : m.headId ≠ 0) (hid : ValidPart m.id.value) (htopic : ValidPart m.topic.value) :
    coreMessage (protoMessage m) = .ok m := by
  have hid' : MessageId.fromString m.id.value = .ok m.id :=
    MessageId.fromString_eq_ok.mpr ⟨hid, rfl⟩
  have htopic' : Topic.new m.topic.value = .ok m.topic := Topic.new_eq_ok.mpr ⟨htopic, rfl⟩
  unfold coreMessage
  simp only [protoMessage, requiredNode, coreNode_protoNode horigin, if_neg hhead, hid', htopic']
  rfl

theorem coreTopicHead_protoTopicHead_eq {h h' : TopicHead}
    (hhead : coreTopicHead (protoTopicHead h) = .ok h') : h' = h := by
  unfold coreTopicHead at hhead
  obtain ⟨origin, horigin, hhead⟩ := Except.bind_eq_ok.mp hhead
  obtain ⟨topic, htopic, hhead⟩ := Except.bind_eq_ok.mp hhead
  cases hhead
  have horigin' : origin = h.origin := requiredNode_some horigin
  have htopic' := (Topic.new_eq_ok.mp (Except.mapError_eq_ok.mp htopic)).2
  subst horigin' htopic'
  rfl

theorem coreTopicHead_protoTopicHead {h : TopicHead}
    (horigin : h.origin.Valid ∨ h.origin.isEmpty = true)
    (htopic : ValidPart h.topic.value) : coreTopicHead (protoTopicHead h) = .ok h := by
  have htopic' : Topic.new h.topic.value = .ok h.topic := Topic.new_eq_ok.mpr ⟨htopic, rfl⟩
  unfold coreTopicHead
  simp only [protoTopicHead, requiredNode, coreNode_protoNode horigin, htopic']
  rfl

end Msgbus

import Msgbus.Formats
import Msgbus.Lib.Base64
import Msgbus.Lib.JsonCodec

/-!
# Formats that write as the deployed build does

`serde_json` writes a struct as an object with its fields in the order of their
declaration, a newtype as its content, bytes as an array of numbers and a map
as an object; `base64` is the URL-safe alphabet without padding.  This instance
writes the same texts.  Its readers are made for what it writes: unlike those of
`serde_json` they refuse whitespace between tokens, fields in another order, other
escapes and unknown fields.  The instance shows that the laws of `Formats` can be
met, and concrete runs are evaluated with it; no general statement is about it.
The text of a status is only ever recorded, so any text that names its code and
message will do.
-/

namespace Msgbus.Serde

open Json

/-! ## Parts -/

def topic : Codec Topic := string.map Topic.mk Topic.value (fun _ => rfl)

def messageId : Codec MessageId := string.map MessageId.mk MessageId.value (fun _ => rfl)

def queueName : Codec QueueName := string.map QueueName.mk QueueName.value (fun _ => rfl)

def u64 : Codec UInt64 :=
  word (2 ^ 64) UInt64.ofNat UInt64.toNat UInt64.toNat_lt (fun _ => UInt64.ofNat_toNat)

def u32 : Codec UInt32 :=
  word (2 ^ 32) UInt32.ofNat UInt32.toNat UInt32.toNat_lt (fun _ => UInt32.ofNat_toNat)

def u8 : Codec UInt8 :=
  word (2 ^ 8) UInt8.ofNat UInt8.toNat UInt8.toNat_lt (fun _ => UInt8.ofNat_toNat)

theorem u8_first (a : UInt8) : ∃ d tail, u8.write a = d :: tail ∧ d ≠ ']' := by
  obtain ⟨d, tail, heq, hd⟩ := decimal_ne_nil a.toNat
  refine ⟨d, tail, heq, ?_⟩
  intro h
  subst h
  exact absurd hd (by decide)

def bytes : Codec ByteArray :=
  (items '[' ']' (Or.inr rfl) u8 u8_first).map (fun l => ⟨l.toArray⟩) (fun b => b.data.toList)
    (fun _ => rfl)

theorem entry_first (e : String × String) :
    ∃ d tail, (entry string).write e = d :: tail ∧ d ≠ '}' :=
  ⟨'"', _, rfl, by decide⟩

def ofEntries (l : List (String × String)) : Option Headers :=
  if h : l.Pairwise (fun a b => a.1 < b.1) then some ⟨l, h⟩ else none

def headers : Codec Headers :=
  (items '{' '}' (Or.inl rfl) (entry string) entry_first).partialMap ofEntries
    OrderedTable.entries (fun t => by rw [ofEntries, dif_pos t.sorted])

/-! ## Records -/

def nodeId : Codec NodeId :=
  (object (field "tenant_id" string (field "bl_name" string (last "device_id" string)))).map
    (fun (tenantId, blName, deviceId) => ⟨tenantId, blName, deviceId⟩)
    (fun n => (n.tenantId, n.blName, n.deviceId)) (fun _ => rfl)

def storedMessage : Codec StoredMessage :=
  (object (field "id" messageId (field "topic" topic (field "origin" nodeId
    (field "head_id" u64 (field "payload" bytes (field "headers" headers
      (field "created_at_ms" u64 (last "deleted" bool))))))))).map
    (fun (id, topic, origin, headId, payload, headers, createdAtMs, deleted) =>
      ⟨id, topic, origin, headId, payload, headers, createdAtMs, deleted⟩)
    (fun m => (m.id, m.topic, m.origin, m.headId, m.payload, m.headers, m.createdAtMs, m.deleted))
    (fun _ => rfl)

def tombstoneRange : Codec TombstoneRange :=
  (object (field "topic" topic (field "origin" nodeId (field "from_head_id" u64
    (field "to_head_id" u64 (last "created_at_ms" u64)))))).map
    (fun (topic, origin, first, last, createdAtMs) => ⟨topic, origin, first, last, createdAtMs⟩)
    (fun t => (t.topic, t.origin, t.fromHeadId, t.toHeadId, t.createdAtMs)) (fun _ => rfl)

def storedFifoMessage : Codec StoredFifoMessage :=
  (object (field "id" messageId (field "queue" queueName (field "topic" topic
    (field "source" nodeId (field "target" nodeId (field "payload" bytes (field "headers" headers
      (field "created_at_ms" u64 (field "sequence" u64 (last "attempts" u32))))))))))).map
    (fun (id, queue, topic, source, target, payload, headers, createdAtMs, sequence, attempts) =>
      ⟨id, queue, topic, source, target, payload, headers, createdAtMs, sequence, attempts⟩)
    (fun m => (m.id, m.queue, m.topic, m.source, m.target, m.payload, m.headers, m.createdAtMs,
      m.sequence, m.attempts))
    (fun _ => rfl)

def peerSyncState : Codec PeerSyncState :=
  (object (field "peer" string
    (field "topic" (option topic fun _ => ⟨'"', _, rfl, by decide⟩)
      (field "origin" (option nodeId fun _ => ⟨'\x7b', _, rfl, by decide⟩)
        (field "local_head" u64 (field "remote_head" u64 (field "last_synced_head" u64
          (field "last_attempt_at_ms" u64 (field "last_success_at_ms" u64
            (field "consecutive_failures" u32
              (last "last_error" (option string fun _ => ⟨'"', _, rfl, by decide⟩)))))))))))).map
    (fun (peer, topic, origin, localHead, remoteHead, lastSynced, lastAttempt, lastSuccess,
        failures, lastError) =>
      ⟨peer, topic, origin, localHead, remoteHead, lastSynced, lastAttempt, lastSuccess, failures,
        lastError⟩)
    (fun p => (p.peer, p.topic, p.origin, p.localHead, p.remoteHead, p.lastSyncedHead,
      p.lastAttemptAtMs, p.lastSuccessAtMs, p.consecutiveFailures, p.lastError))
    (fun _ => rfl)

/-! ## The instance -/

theorem fromUTF8_toUTF8 (s : String) : String.fromUTF8? s.toUTF8 = some s := by
  rw [String.toUTF8_eq_toByteArray, String.fromUTF8?, dif_pos s.isValidUTF8]
  rfl

def format {α : Type} (c : Codec α) : JsonFormat α where
  toStr a := String.ofList (c.write a)
  fromStr s := (c.readAll s.toList).elim (.error "invalid JSON") .ok
  fromStr_toStr := by
    intro a
    rw [String.toList_ofList, c.readAll_write]
    rfl
  toVec a := (String.ofList (c.write a)).toUTF8
  fromSlice b := ((String.fromUTF8? b).bind fun s => c.readAll s.toList).elim
    (.error "invalid JSON") .ok
  fromSlice_toVec := by
    intro a
    rw [fromUTF8_toUTF8, Option.bind_some, String.toList_ofList, c.readAll_write]
    rfl

/-- `URL_SAFE_NO_PAD.encode(value.as_bytes())`. -/
def base64 (value : String) : String :=
  String.ofList (Base64.encode value.toUTF8.data.toList)

theorem base64_injective : Function.Injective base64 := by
  intro a b h
  have hlist := Base64.encode_injective (String.ofList_injective h)
  apply String.toByteArray_inj.mp
  rw [← String.toUTF8_eq_toByteArray, ← String.toUTF8_eq_toByteArray]
  exact ByteArray.ext (Array.toList_inj.mp hlist)

theorem base64_alphabet (value : String) :
    ∀ c ∈ (base64 value).toList, c.isAlphanum = true ∨ c = '-' ∨ c = '_' := by
  rw [base64, String.toList_ofList]
  exact Base64.encode_alphabet _

def codeName : Code → String
  | .ok => "Ok"
  | .cancelled => "Cancelled"
  | .unknown => "Unknown"
  | .invalidArgument => "InvalidArgument"
  | .deadlineExceeded => "DeadlineExceeded"
  | .notFound => "NotFound"
  | .alreadyExists => "AlreadyExists"
  | .permissionDenied => "PermissionDenied"
  | .resourceExhausted => "ResourceExhausted"
  | .failedPrecondition => "FailedPrecondition"
  | .aborted => "Aborted"
  | .outOfRange => "OutOfRange"
  | .unimplemented => "Unimplemented"
  | .internal => "Internal"
  | .unavailable => "Unavailable"
  | .dataLoss => "DataLoss"
  | .unauthenticated => "Unauthenticated"

/-- Formats whose texts are those of the deployed build. -/
@[reducible] def formats : Formats where
  enc := base64
  enc_injective := base64_injective
  enc_alphabet := base64_alphabet
  nodeId := format nodeId
  headers := format headers
  storedMessage := format storedMessage
  tombstoneRange := format tombstoneRange
  storedFifoMessage := format storedFifoMessage
  peerSyncState := format peerSyncState
  statusText status :=
    "status: " ++ codeName status.code ++ ", message: " ++
      String.ofList (writeString status.message)

end Msgbus.Serde

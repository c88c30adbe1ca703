import Msgbus.Status

/-!
# Third-party formats

The stores rest on two crates outside the repository: `serde_json` for the
values they keep and `base64` for the parts of redb keys.  They enter the model
as parameters, with the documented behaviour the code relies on as laws.
-/

namespace Msgbus

/-- `serde_json` at one type: reading back what was written gives the value. -/
structure JsonFormat (α : Type) where
  toVec : α → ByteArray
  fromSlice : ByteArray → Except String α
  fromSlice_toVec : ∀ a, fromSlice (toVec a) = .ok a
  toStr : α → String
  fromStr : String → Except String α
  fromStr_toStr : ∀ a, fromStr (toStr a) = .ok a

/-- The formats of one build: base64 and the JSON form of each stored type. -/
class Formats where
  /-- `URL_SAFE_NO_PAD.encode(value.as_bytes())`. -/
  enc : String → String
  enc_injective : Function.Injective enc
  enc_alphabet : ∀ s, ∀ c ∈ (enc s).toList, c.isAlphanum = true ∨ c = '-' ∨ c = '_'
  nodeId : JsonFormat NodeId
  headers : JsonFormat Headers
  storedMessage : JsonFormat StoredMessage
  tombstoneRange : JsonFormat TombstoneRange
  storedFifoMessage : JsonFormat StoredFifoMessage
  peerSyncState : JsonFormat PeerSyncState
  /-- The `Display` text of a `tonic::Status`. -/
  statusText : Status → String

export Formats (enc)

namespace JsonFormat

variable {α : Type}

/-- `encode`.  The stored types have string map keys, so `to_vec` never fails. -/
def encode (format : JsonFormat α) (value : α) : ByteArray := format.toVec value

def decode (format : JsonFormat α) (value : ByteArray) : Except MsgbusError α :=
  (format.fromSlice value).mapError .serialization

def decodeJson (format : JsonFormat α) (value : String) : Except MsgbusError α :=
  (format.fromStr value).mapError .serialization

@[simp] theorem decode_encode (format : JsonFormat α) (value : α) :
    format.decode (format.encode value) = .ok value := by
  simp [decode, encode, format.fromSlice_toVec, Except.mapError]

@[simp] theorem decodeJson_toStr (format : JsonFormat α) (value : α) :
    format.decodeJson (format.toStr value) = .ok value := by
  simp [decodeJson, format.fromStr_toStr, Except.mapError]

theorem encode_injective (format : JsonFormat α) : Function.Injective format.encode := by
  intro a b h
  have hdecode := congrArg format.decode h
  simpa using hdecode

end JsonFormat

theorem slash_notMem_enc [Formats] (s : String) : '/' ∉ (enc s).toList := by
  intro h
  rcases Formats.enc_alphabet s '/' h with h | h | h
  · exact absurd h (by decide)
  · exact absurd h (by decide)
  · exact absurd h (by decide)

end Msgbus

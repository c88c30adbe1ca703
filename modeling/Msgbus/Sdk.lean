import Msgbus.Server.Subscribe

/-!
# Subscriptions of the SDKs

`ResilientSubscription` of the Rust SDK and `SubscribeIterator` of the Go SDK keep
the position to resume from and open the stream again when it ends or fails with a
status that can be retried.  They differ in their defaults and in how they count.
-/

namespace Msgbus

/-- `retryable_status` and `isRetryable`. -/
def retryableStatus : Code → Bool
  | .unavailable => true
  | .deadlineExceeded => true
  | .aborted => true
  | .cancelled => true
  | _ => false

inductive SdkError where
  | status (status : Status)
  | protocol (message : String)
  deriving DecidableEq

inductive StreamItem where
  | response (message : Option Pb.MessageEnvelope)
  | finished
  | failed (status : Status)
  deriving DecidableEq

structure SubscribeOptions where
  origin : Option Pb.NodeId
  fromHeadId : UInt64
  replayLimit : UInt32

/-- The state of a subscription helper; `connected` says that it has a stream. -/
structure ResilientSubscription where
  topic : String
  origin : Option Pb.NodeId
  nextHeadId : UInt64
  replayLimit : UInt32
  connected : Bool

namespace ResilientSubscription

def openStream (c : ResilientSubscription) : Pb.SubscribeRequest :=
  ⟨c.topic, c.origin, c.nextHeadId, c.replayLimit⟩

/-- One round of the loop on an open stream: what it leaves, and what the call
returns if the round ends it. -/
def receive (resume : UInt64 → UInt64) (empty : String) (c : ResilientSubscription) :
    StreamItem → ResilientSubscription × Option (Except SdkError Pb.MessageEnvelope)
  | .response (some message) => ({ c with nextHeadId := resume message.headId }, some (.ok message))
  | .response none => (c, some (.error (.protocol empty)))
  | .finished => ({ c with connected := false }, none)
  | .failed status =>
      if retryableStatus status.code then ({ c with connected := false }, none)
      else (c, some (.error (.status status)))

theorem eq_of_receive_none {resume : UInt64 → UInt64} {empty : String}
    {c c' : ResilientSubscription} {item : StreamItem}
    (h : receive resume empty c item = (c', none)) : c' = { c with connected := false } := by
  cases item with
  | response message =>
      cases message with
      | none => cases h
      | some envelope => cases h
  | finished =>
      cases h
      rfl
  | failed status =>
      change (if retryableStatus status.code = true then _ else _) = _ at h
      split_ifs at h
      · cases h
        rfl
      · cases h

end ResilientSubscription

def subscribeReconnectingWithOptions (defaultOrigin : Option Pb.NodeId) (topic : String)
    (options : SubscribeOptions) : ResilientSubscription where
  topic := topic
  origin := options.origin.or defaultOrigin
  nextHeadId := max options.fromHeadId 1
  replayLimit := options.replayLimit
  connected := false

def nextMessage : ResilientSubscription → StreamItem →
    ResilientSubscription × Option (Except SdkError Pb.MessageEnvelope) :=
  ResilientSubscription.receive (·.saturatingAdd 1) "server returned empty subscribe response"

/-- `defaultSubscribeOptions` of the Go client. -/
def defaultSubscribeOptions (defaultOrigin : Option Pb.NodeId) (options : SubscribeOptions) :
    SubscribeOptions where
  origin := options.origin.or defaultOrigin
  fromHeadId := if options.fromHeadId = 0 then 1 else options.fromHeadId
  replayLimit := if options.replayLimit = 0 then 100 else options.replayLimit

def subscribeWithOptions (defaultOrigin : Option Pb.NodeId) (topic : String)
    (options : SubscribeOptions) : Pb.SubscribeRequest :=
  let options := defaultSubscribeOptions defaultOrigin options
  ⟨topic, options.origin, options.fromHeadId, options.replayLimit⟩

def subscribeIterator (defaultOrigin : Option Pb.NodeId) (topic : String)
    (options : SubscribeOptions) : ResilientSubscription :=
  let options := defaultSubscribeOptions defaultOrigin options
  ⟨topic, options.origin, options.fromHeadId, options.replayLimit, false⟩

/-- `SubscribeIterator.Recv`.  Its count wraps to 0, which is opened as 1. -/
def recv : ResilientSubscription → StreamItem →
    ResilientSubscription × Option (Except SdkError Pb.MessageEnvelope) :=
  ResilientSubscription.receive (· + 1) "msgbus: empty subscribe response"

inductive Sdk where
  | rust
  | go
  deriving DecidableEq

namespace Sdk

def subscription : Sdk → Option Pb.NodeId → String → SubscribeOptions → ResilientSubscription
  | rust => subscribeReconnectingWithOptions
  | go => subscribeIterator

def request : Sdk → Option Pb.NodeId → ResilientSubscription → Pb.SubscribeRequest
  | rust, _, c => c.openStream
  | go, defaultOrigin, c =>
      subscribeWithOptions defaultOrigin c.topic ⟨c.origin, c.nextHeadId, c.replayLimit⟩

def receive : Sdk → ResilientSubscription → StreamItem →
    ResilientSubscription × Option (Except SdkError Pb.MessageEnvelope)
  | rust => nextMessage
  | go => recv

variable (sdk : Sdk) {c : ResilientSubscription}

theorem toNat_orFirst (first : UInt64) :
    (if first = 0 then 1 else first : UInt64).toNat = max first.toNat 1 := by
  split_ifs with hzero
  · rw [hzero]
    rfl
  · have hpos : first.toNat ≠ 0 := fun h => hzero (UInt64.toNat_inj.mp h)
    omega

theorem subscription_nextHeadId (origin : Option Pb.NodeId) (topic : String)
    (options : SubscribeOptions) :
    (sdk.subscription origin topic options).nextHeadId = max options.fromHeadId 1 := by
  cases sdk with
  | rust => rfl
  | go =>
      rw [← UInt64.toNat_inj, UInt64.toNat_max]
      exact toNat_orFirst options.fromHeadId

theorem request_fromHeadId (origin : Option Pb.NodeId) (c : ResilientSubscription) :
    max (sdk.request origin c).fromHeadId.toNat 1 = max c.nextHeadId.toNat 1 := by
  cases sdk with
  | rust => rfl
  | go =>
      change max (if c.nextHeadId = 0 then 1 else c.nextHeadId : UInt64).toNat 1 = _
      rw [toNat_orFirst]
      omega

/-- A message is returned, and the next position is resumed from unless it was the
last. -/
theorem receive_response (message : Pb.MessageEnvelope) :
    ∃ next : UInt64, sdk.receive c (.response (some message)) =
        ({ c with nextHeadId := next }, some (.ok message)) ∧
      (message.headId.toNat + 1 < 2 ^ 64 → next.toNat = message.headId.toNat + 1) := by
  cases sdk with
  | rust =>
      refine ⟨message.headId.saturatingAdd 1, rfl, ?_⟩
      intro hlt
      rw [UInt64.toNat_saturatingAdd_one]
      omega
  | go =>
      refine ⟨message.headId + 1, rfl, ?_⟩
      intro hlt
      rw [UInt64.toNat_add]
      exact Nat.mod_eq_of_lt hlt

theorem receive_none {item : StreamItem} {c' : ResilientSubscription}
    (h : sdk.receive c item = (c', none)) : c' = { c with connected := false } := by
  cases sdk with
  | rust =>
      change nextMessage c item = _ at h
      unfold nextMessage at h
      exact ResilientSubscription.eq_of_receive_none h
  | go =>
      change recv c item = _ at h
      unfold recv at h
      exact ResilientSubscription.eq_of_receive_none h

end Sdk

end Msgbus

import Msgbus.Lib.TextKey
import Msgbus.Server.Service

/-!
# Peer synchronisation

A pass of `sync.rs` as a program: it pulls every log a peer lists from the local
head on, stores each message and applies each delete marker.  Errors are boxed
in the source and only ever read as text, so they are strings here.
-/

namespace Msgbus

open Program

structure PeerSpec where
  endpoint : String
  expectedNode : Option NodeId
  deriving DecidableEq

/-- `PeerSpec::parse`: what follows the last `=` is the identity to expect. -/
def PeerSpec.parse (value : String) : Except MsgbusError PeerSpec :=
  if isBlank value then
    .error (.invalidArgument "peer is empty")
  else
    match TextKey.rsplitOnce '=' value.toList with
    | some (endpoint, nodeKey) =>
        if isBlank (String.ofList endpoint) then
          .error (.invalidArgument "peer endpoint is empty")
        else do
          let node ← NodeId.fromKey (String.ofList nodeKey)
          return ⟨String.ofList endpoint, some node⟩
    | none => .ok ⟨value, none⟩

/-- `PeerSyncConfig`, without the interval of the passes and the TLS files. -/
structure PeerSyncConfig where
  localNode : NodeId
  peers : List PeerSpec
  batchLimit : UInt32
  deriving DecidableEq

def callStoreText (op : StoreOp) : Server String op.Result :=
  (callStore op).mapError MsgbusError.toText

def recordPeerSyncSuccess (peer : PeerSpec) (topic : Option Topic) (origin : Option NodeId)
    (localHead remoteHead lastSyncedHead : UInt64) : Server String Unit := do
  let attemptAt ← nowMs
  let successAt ← nowMs
  let _ ← callStoreText (.recordPeerSyncState
    { peer := peer.endpoint
      topic := topic
      origin := origin
      localHead := localHead
      remoteHead := remoteHead
      lastSyncedHead := lastSyncedHead
      lastAttemptAtMs := attemptAt
      lastSuccessAtMs := successAt
      consecutiveFailures := 0
      lastError := none })
  return ()

def recordPeerSyncFailure (peer : PeerSpec) (topic : Option Topic) (origin : Option NodeId)
    (localHead remoteHead : UInt64) (error : String) : Server String Unit := do
  let attemptAt ← nowMs
  let _ ← callStoreText (.recordPeerSyncState
    { peer := peer.endpoint
      topic := topic
      origin := origin
      localHead := localHead
      remoteHead := remoteHead
      lastSyncedHead := localHead
      lastAttemptAtMs := attemptAt
      lastSuccessAtMs := 0
      consecutiveFailures := 0
      lastError := some error })
  return ()

variable [Formats]

/-- One message of a fetch stream: check it, store it, apply it. -/
def syncMessage (peer : PeerSpec) (head : TopicHead) (message : StoredMessage) :
    Server String Unit :=
  if message.topic ≠ head.topic ∨ message.origin ≠ head.origin then
    .fail ("peer " ++ peer.endpoint ++ " returned mismatched message for topic=" ++
      head.topic.value ++ " origin=" ++ head.origin.key)
  else do
    let result : ReplicateResult ← callStoreText (.putReplicatedMessage message)
    match result with
    | .inserted => do
        (applyControlMessage message).mapError Formats.statusText
        send message
    | .alreadyPresent => (applyControlMessage message).mapError Formats.statusText

/-- The receive loop of `sync_head` over one fetch stream.  The local head never
falls below where the stream started. -/
def receive (peer : PeerSpec) (head : TopicHead) (last : Option Status) {start : UInt64} :
    List Pb.FetchResponse → { localHead : UInt64 // start ≤ localHead } → UInt32 →
      Server String ({ localHead : UInt64 // start ≤ localHead } × UInt32)
  | [], localHead, fetched =>
      match last with
      | none => .ret (localHead, fetched)
      | some status => .fail (Formats.statusText status)
  | response :: rest, localHead, fetched =>
      match response.message with
      | none => receive peer head last rest localHead fetched
      | some envelope => do
          let message ← ofExcept ((coreMessage envelope).mapError Formats.statusText)
          syncMessage peer head message
          receive peer head last rest
            ⟨max localHead.1 message.headId, UInt64.le_trans localHead.2 (UInt64.le_max_left _ _)⟩
            (fetched.saturatingAdd 1)

def fetchRequest (head : TopicHead) (localHead : UInt64) (batchLimit : UInt32) :
    Pb.FetchRequest where
  topic := head.topic.value
  origin := some (protoNode head.origin)
  fromHeadId := localHead.saturatingAdd 1
  limit := max batchLimit 1

def syncLoop (peer : PeerSpec) (head : TopicHead) (batchLimit : UInt32) (localHead : UInt64) :
    Server String UInt64 :=
  if localHead < head.headId then
    .call (.fetch peer.endpoint (fetchRequest head localHead batchLimit)) fun answer => do
      let (items, last) ← ofExcept (answer.mapError Formats.statusText)
      let (reached, fetched) ← receive peer head last items ⟨localHead, UInt64.le_refl _⟩ 0
      recordPeerSyncSuccess peer (some head.topic) (some head.origin) reached head.headId reached
      if _hstop : fetched = 0 ∨ reached.1 = localHead then
        return reached.1
      else
        syncLoop peer head batchLimit reached.1
  else
    .ret localHead
termination_by 2 ^ 64 - localHead.toNat
decreasing_by
  have hle : localHead.toNat ≤ reached.1.toNat := reached.2
  have hne : reached.1.toNat ≠ localHead.toNat := fun heq => _hstop (Or.inr (UInt64.toNat_inj.mp heq))
  have hlt := UInt64.toNat_lt reached.1
  omega

def syncHead (peer : PeerSpec) (head : TopicHead) (batchLimit : UInt32) : Server String Unit := do
  let stored : Option HeadId ← callStoreText (.getHead head.topic head.origin)
  let localHead ← syncLoop peer head batchLimit (stored.getD 0)
  if head.headId ≤ localHead then
    recordPeerSyncSuccess peer (some head.topic) (some head.origin) localHead head.headId localHead
  else
    return ()

def syncHeads (peer : PeerSpec) (batchLimit : UInt32) : List Pb.TopicHead → Server String Unit
  | [] => .ret ()
  | listed :: rest => do
      let head ← ofExcept ((coreTopicHead listed).mapError Formats.statusText)
      match ← (syncHead peer head batchLimit).attempt with
      | .ok () => syncHeads peer batchLimit rest
      | .error err => do
          let stored : Option HeadId ← callStoreText (.getHead head.topic head.origin)
          recordPeerSyncFailure peer (some head.topic) (some head.origin) (stored.getD 0)
            head.headId err
          .fail err

/-- `connect_peer`; why connecting fails is left open. -/
def connectPeer (peer : PeerSpec) : Server String Unit :=
  .call (.connect peer.endpoint) fun answer => ofExcept answer

def callHealth (peer : PeerSpec) : Server String Pb.HealthResponse :=
  .call (.health peer.endpoint) fun answer => ofExcept (answer.mapError Formats.statusText)

def callListHeads (peer : PeerSpec) : Server String (List Pb.TopicHead) :=
  .call (.listHeads peer.endpoint) fun answer => ofExcept (answer.mapError Formats.statusText)

def verifyPeerIdentity (localNode : NodeId) (peer : PeerSpec) : Server String Unit := do
  let response ← callHealth peer
  match response.node with
  | none => .fail ("peer " ++ peer.endpoint ++ " health response has no node")
  | some remote => do
      let remoteNode ← ofExcept ((coreNode remote).mapError Formats.statusText)
      if remoteNode = localNode then
        .fail ("peer " ++ peer.endpoint ++ " reports the local node identity")
      else
        match peer.expectedNode with
        | some expected =>
            if remoteNode ≠ expected then
              .fail ("peer " ++ peer.endpoint ++ " identity mismatch: expected " ++
                expected.key ++ ", got " ++ remoteNode.key)
            else
              .ret ()
        | none => .ret ()

def syncPeer (localNode : NodeId) (peer : PeerSpec) (batchLimit : UInt32) :
    Server String Unit := do
  connectPeer peer
  verifyPeerIdentity localNode peer
  let heads ← callListHeads peer
  syncHeads peer batchLimit heads
  recordPeerSyncSuccess peer none none 0 0 0

/-- The loop of `sync_once`: a peer that fails is recorded and the others are
still tried; the pass fails with the first error. -/
def syncPeers (config : PeerSyncConfig) : List PeerSpec → Option String → Server String Unit
  | [], none => .ret ()
  | [], some error => .fail error
  | peer :: rest, firstError => do
      match ← (syncPeer config.localNode peer config.batchLimit).attempt with
      | .ok () => syncPeers config rest firstError
      | .error error => do
          let _ : Except String Unit ← (recordPeerSyncFailure peer none none 0 0 error).attempt
          syncPeers config rest (firstError.or (some error))

def syncOnce (config : PeerSyncConfig) : Server String Unit :=
  syncPeers config config.peers none

/-- What wakes the task of `spawn_peer_sync_with_shutdown`: its interval, or the
shutdown channel, with the value it holds unless the sender is gone. -/
inductive Wake where
  | tick
  | changed (shutdown : Option Bool)
  deriving DecidableEq

/-- The task of `spawn_peer_sync_with_shutdown`, woken so many times: a pass for
each tick, one after the other, until it is to shut down.  A pass that fails is
only logged. -/
def peerSync (config : PeerSyncConfig) : List Wake → Server String Unit
  | [] => .ret ()
  | .tick :: rest => do
      let _ : Except String Unit ← (syncOnce config).attempt
      peerSync config rest
  | .changed (some false) :: rest => peerSync config rest
  | .changed (some true) :: _ => .ret ()
  | .changed none :: _ => .ret ()

end Msgbus

import Msgbus.Status

/-!
# The store trait

`MsgbusStore` as a class: one field per method of the trait, on an explicit
store value.  A call that fails returns no store, since both backends drop
their transaction on every error path; `StoreOp.after` puts the old one back.
What a call reads from outside, the clock and a fresh message id, is passed in
as `CallEnv`.
-/

namespace Msgbus

/-- What one store call draws from its surroundings: its first and second
reading of `now_ms` and the id that `NewMessage::new` generates. -/
structure CallEnv where
  now : UInt64
  later : UInt64
  id : MessageId
  deriving DecidableEq

/-- `FifoFrontAction`, the same private type in both backends. -/
inductive FifoFrontAction where
  | ack
  | reject
  deriving DecidableEq

/-- The fields `record_peer_sync_state` overrides, from the record already
stored under the same key; both backends have this code. -/
def countFailures (state : PeerSyncState) (previous : Option PeerSyncState) : PeerSyncState :=
  match state.lastError, previous with
  | some _, some previous =>
      { state with
        lastSuccessAtMs :=
          if state.lastSuccessAtMs = 0 then previous.lastSuccessAtMs else state.lastSuccessAtMs
        consecutiveFailures := previous.consecutiveFailures.saturatingAdd 1 }
  | some _, none => { state with consecutiveFailures := 1 }
  | none, _ => { state with consecutiveFailures := 0 }

class MsgbusStore (σ : Type) where
  empty : σ
  appendMessage : σ → NewMessage → UInt64 → Except MsgbusError (StoredMessage × σ)
  fetchMessages : σ → FetchQuery → Except MsgbusError (List StoredMessage)
  getHead : σ → Topic → NodeId → Except MsgbusError (Option HeadId)
  listHeads : σ → Except MsgbusError (List TopicHead)
  putReplicatedMessage : σ → StoredMessage → Except MsgbusError (ReplicateResult × σ)
  tombstoneRange : σ → Topic → NodeId → HeadId → HeadId → UInt64 →
    Except MsgbusError (UInt64 × σ)
  tombstoneRangeWithMarker : σ → Topic → NodeId → HeadId → HeadId → Topic → NodeId →
    CallEnv → Except MsgbusError ((UInt64 × StoredMessage) × σ)
  enqueueFifo : σ → NewFifoMessage → UInt64 → Except MsgbusError (StoredFifoMessage × σ)
  peekFifo : σ → QueueName → Except MsgbusError (Option StoredFifoMessage)
  ackFifo : σ → QueueName → MessageId → Except MsgbusError (Bool × σ)
  rejectFifo : σ → QueueName → MessageId → Except MsgbusError (Bool × σ)
  recordPeerSyncState : σ → PeerSyncState → Except MsgbusError (Unit × σ)
  listPeerSyncStates : σ → Except MsgbusError (List PeerSyncState)

/-- A call of one of the thirteen methods, with its arguments. -/
inductive StoreOp where
  | appendMessage (message : NewMessage)
  | fetchMessages (query : FetchQuery)
  | getHead (topic : Topic) (origin : NodeId)
  | listHeads
  | putReplicatedMessage (message : StoredMessage)
  | tombstoneRange (topic : Topic) (origin : NodeId) (first last : HeadId)
  | tombstoneRangeWithMarker (topic : Topic) (origin : NodeId) (first last : HeadId)
      (markerTopic : Topic) (markerOrigin : NodeId)
  | enqueueFifo (message : NewFifoMessage)
  | peekFifo (queue : QueueName)
  | ackFifo (queue : QueueName) (messageId : MessageId)
  | rejectFifo (queue : QueueName) (messageId : MessageId)
  | recordPeerSyncState (state : PeerSyncState)
  | listPeerSyncStates
  deriving DecidableEq

namespace StoreOp

def Result : StoreOp → Type
  | appendMessage _ => StoredMessage
  | fetchMessages _ => List StoredMessage
  | getHead _ _ => Option HeadId
  | listHeads => List TopicHead
  | putReplicatedMessage _ => ReplicateResult
  | tombstoneRange _ _ _ _ => UInt64
  | tombstoneRangeWithMarker _ _ _ _ _ _ => UInt64 × StoredMessage
  | enqueueFifo _ => StoredFifoMessage
  | peekFifo _ => Option StoredFifoMessage
  | ackFifo _ _ => Bool
  | rejectFifo _ _ => Bool
  | recordPeerSyncState _ => Unit
  | listPeerSyncStates => List PeerSyncState

def onLogs : StoreOp → Bool
  | enqueueFifo _ | peekFifo _ | ackFifo _ _ | rejectFifo _ _ => false
  | recordPeerSyncState _ | listPeerSyncStates => false
  | _ => true

variable {σ : Type} [MsgbusStore σ]

def exec (s : σ) (env : CallEnv) : (op : StoreOp) → Except MsgbusError (op.Result × σ)
  | appendMessage message => MsgbusStore.appendMessage s message env.now
  | fetchMessages query => (MsgbusStore.fetchMessages s query).map (·, s)
  | getHead topic origin => (MsgbusStore.getHead s topic origin).map (·, s)
  | listHeads => (MsgbusStore.listHeads s).map (·, s)
  | putReplicatedMessage message => MsgbusStore.putReplicatedMessage s message
  | tombstoneRange topic origin first last =>
      MsgbusStore.tombstoneRange s topic origin first last env.now
  | tombstoneRangeWithMarker topic origin first last markerTopic markerOrigin =>
      MsgbusStore.tombstoneRangeWithMarker s topic origin first last markerTopic
        markerOrigin env
  | enqueueFifo message => MsgbusStore.enqueueFifo s message env.now
  | peekFifo queue => (MsgbusStore.peekFifo s queue).map (·, s)
  | ackFifo queue messageId => MsgbusStore.ackFifo s queue messageId
  | rejectFifo queue messageId => MsgbusStore.rejectFifo s queue messageId
  | recordPeerSyncState state => MsgbusStore.recordPeerSyncState s state
  | listPeerSyncStates => (MsgbusStore.listPeerSyncStates s).map (·, s)

def outcome (s : σ) (env : CallEnv) (op : StoreOp) : Except MsgbusError op.Result :=
  (op.exec s env).map Prod.fst

/-- The store after a call; a failed call leaves it as it was. -/
def after (s : σ) (env : CallEnv) (op : StoreOp) : σ :=
  match op.exec s env with
  | .ok (_, s') => s'
  | .error _ => s

variable {s s' : σ} {env : CallEnv} {op : StoreOp}

theorem outcome_eq_ok {r : op.Result} :
    op.outcome s env = .ok r ↔ ∃ s', op.exec s env = .ok (r, s') := by
  unfold outcome
  cases op.exec s env with
  | ok result => simp [Except.map, Prod.ext_iff]
  | error e => simp [Except.map]

theorem outcome_eq_error {e : MsgbusError} :
    op.outcome s env = .error e ↔ op.exec s env = .error e := by
  unfold outcome
  cases op.exec s env with
  | ok result => simp [Except.map]
  | error e => simp [Except.map]

theorem after_of_ok {r : op.Result} (h : op.exec s env = .ok (r, s')) : op.after s env = s' := by
  rw [after, h]

theorem after_of_error {e : MsgbusError} (h : op.exec s env = .error e) : op.after s env = s := by
  rw [after, h]

end StoreOp

inductive Reachable {σ : Type} [MsgbusStore σ] : σ → Prop where
  | empty : Reachable MsgbusStore.empty
  | call {s : σ} (env : CallEnv) (op : StoreOp) : Reachable s → Reachable (op.after s env)

/-- The states a store can be in after calls that all satisfy `P`. -/
inductive ReachableBy {σ : Type} [MsgbusStore σ] (P : CallEnv → StoreOp → Prop) : σ → Prop where
  | empty : ReachableBy P MsgbusStore.empty
  | call {s : σ} {env : CallEnv} {op : StoreOp} :
      P env op → ReachableBy P s → ReachableBy P (op.after s env)

theorem ReachableBy.reachable {σ : Type} [MsgbusStore σ] {P : CallEnv → StoreOp → Prop} {s : σ}
    (h : ReachableBy P s) : Reachable s := by
  induction h with
  | empty => exact .empty
  | call _ _ ih => exact .call _ _ ih

def runCalls {σ : Type} [MsgbusStore σ] (calls : List (CallEnv × StoreOp)) : σ :=
  calls.foldl (fun s call => call.2.after s call.1) MsgbusStore.empty

theorem reachable_runCalls {σ : Type} [MsgbusStore σ] (calls : List (CallEnv × StoreOp)) :
    Reachable (runCalls calls : σ) := by
  have hrun : ∀ s : σ, Reachable s →
      Reachable (calls.foldl (fun s call => call.2.after s call.1) s) := by
    induction calls with
    | nil => exact fun s hs => hs
    | cons call rest ih => exact fun s hs => ih _ (hs.call call.1 call.2)
  exact hrun _ .empty

section Runs

variable {σ : Type} [MsgbusStore σ]

theorem runCalls_concat (calls : List (CallEnv × StoreOp)) (env : CallEnv) (op : StoreOp) :
    (runCalls (calls ++ [(env, op)]) : σ) = op.after (runCalls calls : σ) env := by
  rw [runCalls, List.foldl_append]
  rfl

def runFrom (s : σ) (calls : List (CallEnv × StoreOp)) : σ :=
  calls.foldl (fun s call => call.2.after s call.1) s

abbrev CallEvent := (op : StoreOp) × Except MsgbusError op.Result

def traceFrom (s : σ) : List (CallEnv × StoreOp) → List CallEvent
  | [] => []
  | (env, op) :: rest => ⟨op, op.outcome s env⟩ :: traceFrom (op.after s env) rest

variable (σ) in
def trace (calls : List (CallEnv × StoreOp)) : List CallEvent :=
  traceFrom (MsgbusStore.empty : σ) calls

theorem trace_concat (calls : List (CallEnv × StoreOp)) (env : CallEnv) (op : StoreOp) :
    trace σ (calls ++ [(env, op)]) = trace σ calls ++ [⟨op, op.outcome (runCalls calls : σ) env⟩] := by
  have hfrom : ∀ s : σ, traceFrom s (calls ++ [(env, op)]) = traceFrom s calls ++
      [⟨op, op.outcome (calls.foldl (fun s call => call.2.after s call.1) s) env⟩] := by
    induction calls with
    | nil => exact fun s => rfl
    | cons call rest ih => exact fun s => congrArg (List.cons _) (ih _)
  exact hfrom _

end Runs

end Msgbus

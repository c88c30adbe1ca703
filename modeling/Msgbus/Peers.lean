import Msgbus.Fifo

/-!
# Counting the failures of a peer

The record of a peer, topic and origin is a fold over all records made for them.
For records of the shapes the server makes, it holds the number of failures
since the last success and the time of that success, and the records of other
peers and logs do not show in it.
-/

namespace Msgbus

namespace PeerSyncState

/-- The shapes in which the server records a pass: a success has no error and a
time, a failure has an error and leaves the time of success to the store. -/
structure Shaped (state : PeerSyncState) : Prop where
  paired : state.Paired
  outcome : (state.lastError = none ∧ 0 < state.lastSuccessAtMs) ∨
    (state.lastError.isSome ∧ state.lastSuccessAtMs = 0)

def failed (state : PeerSyncState) : Bool := state.lastError.isSome

def failuresSinceSuccess (records : List PeerSyncState) : Nat :=
  (records.reverse.takeWhile failed).length

def lastSuccess (records : List PeerSyncState) : UInt64 :=
  (records.reverse.find? fun state => !state.failed).elim 0 lastSuccessAtMs

def counted (records : List PeerSyncState) : Option PeerSyncState :=
  records.foldl (fun previous state => some (countFailures state previous)) none

theorem counted_concat (records : List PeerSyncState) (state : PeerSyncState) :
    counted (records ++ [state]) = some (countFailures state (counted records)) := by
  unfold counted
  rw [List.foldl_append]
  rfl

theorem counted_eq_none_iff {records : List PeerSyncState} :
    counted records = none ↔ records = [] := by
  constructor
  · intro h
    cases records using List.reverseRecOn with
    | nil => rfl
    | append_singleton before state =>
        rw [counted_concat] at h
        cases h
  · rintro rfl
    rfl

theorem address_of_counted {records : List PeerSyncState} {state : PeerSyncState} {a : PeerKey}
    (hall : ∀ record ∈ records, record.address = a) (h : counted records = some state) :
    state.address = a := by
  cases records using List.reverseRecOn with
  | nil => cases h
  | append_singleton before last =>
      rw [counted_concat] at h
      rw [← Option.some.inj h, countFailures_address]
      exact hall last (List.mem_append_right _ (List.mem_singleton_self last))

section Concat

variable {records : List PeerSyncState} {state : PeerSyncState}

theorem failuresSinceSuccess_concat :
    failuresSinceSuccess (records ++ [state]) =
      if state.failed then failuresSinceSuccess records + 1 else 0 := by
  unfold failuresSinceSuccess
  rw [List.reverse_concat, List.takeWhile_cons]
  split_ifs
  · rw [List.length_cons]
  · rw [List.length_nil]

theorem lastSuccess_concat :
    lastSuccess (records ++ [state]) =
      if state.failed then lastSuccess records else state.lastSuccessAtMs := by
  unfold lastSuccess
  rw [List.reverse_concat, List.find?_cons]
  cases state.failed with
  | true => rfl
  | false => rfl

end Concat

/-- A record says how many failures its history ends with and when its last
success was. -/
structure Counts (records : List PeerSyncState) (state : PeerSyncState) : Prop where
  failures : state.consecutiveFailures.toNat = min (failuresSinceSuccess records) (2 ^ 32 - 1)
  success : state.lastSuccessAtMs = lastSuccess records

theorem counts_countFailures {records : List PeerSyncState} {state : PeerSyncState}
    (hshaped : state.Shaped)
    (hbefore : ∀ previous, counted records = some previous → Counts records previous) :
    Counts (records ++ [state]) (countFailures state (counted records)) := by
  rcases hshaped.outcome with ⟨herror, -⟩ | ⟨herror, hzero⟩
  · have hfailed : ¬ state.failed := by
      rw [failed, herror]
      exact Bool.false_ne_true
    have hcount : countFailures state (counted records) = { state with consecutiveFailures := 0 } := by
      unfold countFailures
      rw [herror]
    rw [hcount]
    constructor
    · rw [failuresSinceSuccess_concat, if_neg hfailed]
      rfl
    · rw [lastSuccess_concat, if_neg hfailed]
  · have hfailed : state.failed := herror
    obtain ⟨error, hsome⟩ := Option.isSome_iff_exists.mp herror
    constructor
    · rw [failuresSinceSuccess_concat, if_pos hfailed]
      unfold countFailures
      rw [hsome]
      cases hprevious : counted records with
      | none =>
          rw [counted_eq_none_iff.mp hprevious]
          rfl
      | some previous =>
          have hcount := (hbefore previous hprevious).failures
          change (previous.consecutiveFailures.saturatingAdd 1).toNat = _
          rw [UInt32.toNat_saturatingAdd_one, hcount]
          omega
    · rw [lastSuccess_concat, if_pos hfailed]
      unfold countFailures
      rw [hsome]
      cases hprevious : counted records with
      | none =>
          rw [counted_eq_none_iff.mp hprevious]
          exact hzero
      | some previous =>
          change (if state.lastSuccessAtMs = 0 then previous.lastSuccessAtMs
            else state.lastSuccessAtMs) = _
          rw [if_pos hzero, (hbefore previous hprevious).success]

theorem counts_counted {records : List PeerSyncState} (hshaped : ∀ state ∈ records, state.Shaped) :
    ∀ state, counted records = some state → Counts records state := by
  induction records using List.reverseRecOn with
  | nil =>
      intro state h
      cases h
  | append_singleton records last ih =>
      intro state h
      rw [counted_concat] at h
      rw [← Option.some.inj h]
      apply counts_countFailures
      · exact hshaped last (List.mem_append_right _ (List.mem_singleton_self last))
      · exact ih fun state hmem => hshaped state (List.mem_append_left _ hmem)

end PeerSyncState

open PeerSyncState (counted counted_concat Counts)

def StoreOp.recordAt (a : PeerKey) : StoreOp → Option PeerSyncState
  | .recordPeerSyncState state => if state.address = a then some state else none
  | _ => none

def recordsAt (a : PeerKey) (calls : List (CallEnv × StoreOp)) : List PeerSyncState :=
  calls.filterMap fun call => call.2.recordAt a

def StoreOp.Shaped : StoreOp → Prop
  | .recordPeerSyncState state => state.Shaped
  | _ => True

theorem StoreOp.Shaped.paired {op : StoreOp} (h : op.Shaped) : op.Paired := by
  cases op with
  | recordPeerSyncState state => exact PeerSyncState.Shaped.paired h
  | _ => trivial

theorem StoreOp.recordAt_eq_some {op : StoreOp} {a : PeerKey} {state : PeerSyncState}
    (h : op.recordAt a = some state) : op = .recordPeerSyncState state ∧ state.address = a := by
  cases op with
  | recordPeerSyncState other =>
      simp only [StoreOp.recordAt] at h
      split_ifs at h with ha
      cases h
      exact ⟨rfl, ha⟩
  | _ => cases h

theorem recordsAt_concat (a : PeerKey) (calls : List (CallEnv × StoreOp)) (env : CallEnv)
    (op : StoreOp) :
    recordsAt a (calls ++ [(env, op)]) = recordsAt a calls ++ (op.recordAt a).toList := by
  unfold recordsAt
  rw [List.filterMap_append, List.filterMap_cons, List.filterMap_nil]
  cases op.recordAt a with
  | none => rfl
  | some state => rfl

theorem address_of_mem_recordsAt {calls : List (CallEnv × StoreOp)} {a : PeerKey}
    {state : PeerSyncState} (h : state ∈ recordsAt a calls) : state.address = a := by
  obtain ⟨call, -, hrecord⟩ := List.mem_filterMap.mp h
  exact (StoreOp.recordAt_eq_some hrecord).2

theorem shaped_of_mem_recordsAt {calls : List (CallEnv × StoreOp)}
    (hshaped : ∀ call ∈ calls, call.2.Shaped) {a : PeerKey} {state : PeerSyncState}
    (h : state ∈ recordsAt a calls) : state.Shaped := by
  obtain ⟨call, hmem, hrecord⟩ := List.mem_filterMap.mp h
  have hcall := hshaped call hmem
  rw [(StoreOp.recordAt_eq_some hrecord).1] at hcall
  exact hcall

theorem Queues.peers_of_step {env : CallEnv} {op : StoreOp} {r : op.Result} {q q' : Queues}
    (h : Queues.Step env op r q q') (a : PeerKey) :
    q'.peers a =
      (op.recordAt a).elim (q.peers a) fun state => some (countFailures state (q.peers a)) := by
  cases op with
  | recordPeerSyncState state =>
      have hq' : q' = q.record state := h
      rw [hq']
      change Function.update q.peers state.address _ a = _
      rw [Function.update_apply, StoreOp.recordAt]
      by_cases ha : state.address = a
      · rw [if_pos ha.symm, if_pos ha, ha]
        rfl
      · rw [if_neg (Ne.symm ha), if_neg ha]
        rfl
  | enqueueFifo m => exact congrFun (congrArg Queues.peers h.2) a
  | ackFifo queue messageId => exact congrFun (Queues.FrontStep.last_eq h).2 a
  | rejectFifo queue messageId => exact congrFun (Queues.FrontStep.last_eq h).2 a
  | peekFifo queue => exact congrFun (congrArg Queues.peers h.2) a
  | listPeerSyncStates => exact congrFun (congrArg Queues.peers h.2.2) a
  | _ => exact congrFun (congrArg Queues.peers h) a

variable [Formats]

namespace StorageKind

theorem queues_step (kind : StorageKind) {s s' : kind.Store} {env : CallEnv} {op : StoreOp}
    {r : op.Result} (hs : kind.FifoInv s) (hpaired : (kind.queues s).Paired) (hop : op.Paired)
    (h : op.exec s env = .ok (r, s')) : Queues.Step env op r (kind.queues s) (kind.queues s') := by
  cases kind with
  | redb => exact (Redb.exec_refines_queues hs.inv hs.coded h).2 (hpaired.pairedFor hop)
  | sqlite => exact (Sqlite.exec_refines_queues hs.inv hs.coded h).2 (hpaired.pairedFor hop)

theorem listPeerSyncStates_ok (kind : StorageKind) {s : kind.Store} (hs : kind.FifoInv s) :
    ∃ states, MsgbusStore.listPeerSyncStates s = .ok states ∧ states.Nodup ∧
      ∀ state, state ∈ states ↔ (kind.queues s).peers state.address = some state := by
  cases kind with
  | redb => exact Redb.listPeerSyncStates_spec hs.coded
  | sqlite => exact Sqlite.listPeerSyncStates_spec hs.coded

theorem recordAt_of_error (kind : StorageKind) {s : kind.Store} {env : CallEnv} {op : StoreOp}
    {e : MsgbusError} (hs : kind.FifoInv s) (h : op.exec s env = .error e) (a : PeerKey) :
    op.recordAt a = none := by
  cases op with
  | recordPeerSyncState state =>
      obtain ⟨s', hexec⟩ := kind.record_ok hs env state
      rw [hexec] at h
      cases h
  | _ => rfl

/-- After a sequence of calls the record of an address is the fold over the
records made there. -/
theorem peers_runCalls (kind : StorageKind) {calls : List (CallEnv × StoreOp)}
    (hpaired : ∀ call ∈ calls, call.2.Paired) :
    (kind.queues (runCalls calls)).Paired ∧
      ∀ a, (kind.queues (runCalls calls)).peers a = counted (recordsAt a calls) := by
  induction calls using List.reverseRecOn with
  | nil =>
      rw [show runCalls [] = (MsgbusStore.empty : kind.Store) from rfl, kind.queues_empty]
      constructor
      · intro a state h
        cases h
      · exact fun a => rfl
  | append_singleton calls call ih =>
      obtain ⟨env, op⟩ := call
      have hop : op.Paired := hpaired (env, op) (List.mem_append_right _ (List.mem_singleton_self _))
      obtain ⟨hall, hpeers⟩ := ih fun call hmem => hpaired call (List.mem_append_left _ hmem)
      have hinv := kind.fifoInv_of_reachable (reachable_runCalls calls)
      have hrecords : ∀ a, counted (recordsAt a (calls ++ [(env, op)])) =
          (op.recordAt a).elim (counted (recordsAt a calls)) fun state =>
            some (countFailures state (counted (recordsAt a calls))) := by
        intro a
        rw [recordsAt_concat]
        cases op.recordAt a with
        | none => rw [Option.toList_none, List.append_nil, Option.elim_none]
        | some state => exact counted_concat _ state
      rw [runCalls_concat]
      cases hexec : op.exec (runCalls calls : kind.Store) env with
      | error e =>
          rw [StoreOp.after_of_error hexec]
          refine ⟨hall, fun a => ?_⟩
          rw [hrecords, kind.recordAt_of_error hinv hexec a]
          exact hpeers a
      | ok result =>
          obtain ⟨r, s'⟩ := result
          rw [StoreOp.after_of_ok hexec]
          have hstep := kind.queues_step hinv hall hop hexec
          refine ⟨Queues.paired_of_step hall hop hstep, fun a => ?_⟩
          rw [hrecords, Queues.peers_of_step hstep a, hpeers a]

end StorageKind

/-- After any sequence of calls that records sync states in the server's shapes
only, the listed states are one for each address recorded at, and each counts
the history of its own address. -/
theorem peer_failures_counted (kind : StorageKind) {calls : List (CallEnv × StoreOp)}
    (hshaped : ∀ call ∈ calls, call.2.Shaped) :
    ∃ states, MsgbusStore.listPeerSyncStates (runCalls calls : kind.Store) = .ok states ∧
      (states.map PeerSyncState.address).Nodup ∧
      (∀ a, a ∈ states.map PeerSyncState.address ↔ recordsAt a calls ≠ []) ∧
      ∀ state ∈ states, Counts (recordsAt state.address calls) state := by
  have hpeers := (kind.peers_runCalls fun call hmem => (hshaped call hmem).paired).2
  obtain ⟨states, hlist, hnodup, hmem⟩ :=
    kind.listPeerSyncStates_ok (kind.fifoInv_of_reachable (reachable_runCalls calls))
  simp only [hpeers] at hmem
  refine ⟨states, hlist, ?_, ?_, ?_⟩
  · refine hnodup.map_on ?_
    intro state hstate other hother ha
    have hsome := (hmem state).mp hstate
    rw [ha, (hmem other).mp hother] at hsome
    exact (Option.some.inj hsome).symm
  · intro a
    rw [List.mem_map, ne_eq, ← PeerSyncState.counted_eq_none_iff]
    constructor
    · rintro ⟨state, hstate, rfl⟩
      rw [(hmem state).mp hstate]
      exact Option.some_ne_none state
    · intro hne
      obtain ⟨state, hstate⟩ := Option.ne_none_iff_exists'.mp hne
      have haddress : state.address = a :=
        PeerSyncState.address_of_counted (fun record => address_of_mem_recordsAt) hstate
      exact ⟨state, (hmem state).mpr (haddress ▸ hstate), haddress⟩
  · intro state hstate
    apply PeerSyncState.counts_counted
    · exact fun other hother => shaped_of_mem_recordsAt hshaped hother
    · exact (hmem state).mp hstate

def failTwice : List (CallEnv × StoreOp) :=
  [(firstEnv, .recordPeerSyncState ⟨"p", none, none, 0, 0, 0, 1, 0, 7, some "down"⟩),
    (firstEnv, .recordPeerSyncState ⟨"q", none, none, 0, 0, 0, 2, 2, 0, none⟩),
    (firstEnv, .recordPeerSyncState ⟨"p", none, none, 0, 0, 0, 3, 0, 7, some "down"⟩)]

omit [Formats] in
/-- Both failures of the first peer are counted. -/
theorem peer_failures_counted_twice :
    letI := Serde.formats
    ∃ states, MsgbusStore.listPeerSyncStates (runCalls failTwice : Sqlite) = .ok states ∧
      ∃ state ∈ states, state.address = ⟨"p", none, none⟩ ∧ state.consecutiveFailures.toNat = 2 := by
  let := Serde.formats
  have hshaped : ∀ call ∈ failTwice, call.2.Shaped := by
    unfold failTwice
    simp only [List.mem_cons, List.not_mem_nil, or_false, forall_eq_or_imp, forall_eq]
    exact ⟨⟨rfl, Or.inr ⟨rfl, rfl⟩⟩, ⟨rfl, Or.inl ⟨rfl, by decide⟩⟩, ⟨rfl, Or.inr ⟨rfl, rfl⟩⟩⟩
  obtain ⟨states, hlist, -, hmem, hcounts⟩ := peer_failures_counted .sqlite hshaped
  obtain ⟨state, hstate, haddress⟩ :=
    List.mem_map.mp ((hmem ⟨"p", none, none⟩).mpr (by decide))
  refine ⟨states, hlist, state, hstate, haddress, ?_⟩
  rw [(hcounts state hstate).failures, haddress]
  decide

end Msgbus

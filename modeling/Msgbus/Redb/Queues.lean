import Msgbus.Lib.CodedTable
import Msgbus.Queues
import Msgbus.Redb.Refines

/-!
# Queues and peer records in redb

The tables of queues and peers as coded tables, and what each call does to the
abstract queues they hold.
-/

namespace Msgbus.Redb

variable [Formats] {s : Redb}

def fifoCode : RowCode (QueueName × UInt64) StoredFifoMessage String ByteArray where
  key a := fifoMessageKey a.1 a.2
  addr m := (m.queue, m.sequence)
  value := Formats.storedFifoMessage.encode
  read _ value := (Formats.storedFifoMessage.decode value).toOption
  read_value m := by
    rw [JsonFormat.decode_encode]
    rfl

def peerCode : RowCode PeerKey PeerSyncState String ByteArray where
  key a :=
    "peer-sync/" ++ enc a.peer ++ "/" ++ enc (a.topic.elim "-" Topic.value) ++ "/" ++
      enc (a.origin.elim "-" id)
  addr := PeerSyncState.address
  value := Formats.peerSyncState.encode
  read _ value := (Formats.peerSyncState.decode value).toOption
  read_value state := by
    rw [JsonFormat.decode_encode]
    rfl

theorem peerCode_key (state : PeerSyncState) : peerCode.key state.address = peerSyncKey state := by
  obtain ⟨peer, topic, origin⟩ := state
  cases origin with
  | none => rfl
  | some node => rfl

theorem fifoCode_row_fst (m : StoredFifoMessage) :
    (fifoCode.row m).1 = fifoMessageKey m.queue m.sequence := rfl

theorem fifoCode_key_injective : Function.Injective fifoCode.key := by
  intro a b h
  obtain ⟨hqueue, hn⟩ := fifoMessageKey_inj.mp h
  exact Prod.ext hqueue hn

structure QueuesCoded (s : Redb) : Prop where
  fifo : fifoCode.Codes s.fifoMessages
  peers : peerCode.Codes s.peerSync

def queues (s : Redb) : Queues where
  last queue := (s.fifoSequences.get (fifoSequenceKey queue)).getD 0
  waiting := fifoCode.view s.fifoMessages
  peers := peerCode.view s.peerSync

/-! ## Queues -/

theorem queues_enqueue (hs : s.QueuesCoded) {m : NewFifoMessage} {now : UInt64}
    {r : StoredFifoMessage} {s' : Redb} (h : enqueueFifo s m now = .ok (r, s')) :
    s'.QueuesCoded ∧ r = s.queues.enqueued m now ∧ s'.queues = s.queues.enqueue m now := by
  cases h
  refine ⟨⟨RowCode.codes_insert hs.fifo (s.queues.enqueued m now), hs.peers⟩, rfl, ?_⟩
  apply Queues.ext
  · funext queue
    change ((s.fifoSequences.insert _ _).get (fifoSequenceKey queue)).getD 0 =
      Function.update s.queues.last m.queue _ queue
    rw [OrderedTable.get_insert, Function.update_apply]
    by_cases hqueue : queue = m.queue
    · rw [if_pos (congrArg fifoSequenceKey hqueue), if_pos hqueue]
      rfl
    · rw [if_neg (fun hkey => hqueue (fifoSequenceKey_injective hkey)), if_neg hqueue]
      rfl
  · exact RowCode.view_insert (x := s.queues.enqueued m now) hs.fifo
      (RowCode.owns_of_injective fifoCode_key_injective _ _)
  · rfl

theorem exists_front (hs : s.QueuesCoded) (queue : QueueName) :
    ∃ front, s.queues.IsFront queue front ∧ (∀ m, front = some m → m.queue = queue) ∧
      ((s.fifoMessages.rangeFrom (fifoPrefix queue)).head?.filter fun e =>
        startsWith e.1 (fifoPrefix queue)) = front.map fifoCode.row := by
  -- the scan sees the rows of the queue, in order
  have hrows : (s.fifoMessages.rangeFrom (fifoPrefix queue)).filter
        (fun e => startsWith e.1 (fifoPrefix queue)) =
      s.fifoMessages.entries.filter fun e => startsWith e.1 (fifoPrefix queue) := by
    rw [OrderedTable.rangeFrom, List.filter_filter]
    apply List.filter_congr
    intro e _
    cases hstarts : startsWith e.1 (fifoPrefix queue) with
    | false => rfl
    | true => simp [le_of_startsWith hstarts]
  rw [← List.head?_takeWhile, takeWhile_rangeFrom _ (startsWith_self _), hrows]
  have hstarts : ∀ m, m.queue = queue →
      startsWith (fifoCode.row m).1 (fifoPrefix queue) = true :=
    fun m hm => startsWith_fifoPrefix.mpr hm
  cases hhead : (s.fifoMessages.entries.filter fun e =>
      startsWith e.1 (fifoPrefix queue)).head? with
  | none =>
      refine ⟨none, ?_, ?_, rfl⟩
      · intro n
        rw [Option.eq_none_iff_forall_ne_some]
        intro m hm
        obtain ⟨hmem, haddr⟩ := (RowCode.view_eq_some hs.fifo).mp hm
        rw [List.head?_eq_none_iff, List.filter_eq_nil_iff] at hhead
        exact hhead _ hmem (hstarts m (congrArg Prod.fst haddr))
      · intro m hm
        cases hm
  | some e =>
      obtain ⟨hmem, hstart, hleast⟩ := OrderedTable.of_head?_filter hhead
      obtain ⟨m, rfl⟩ := hs.fifo e hmem
      have hqueue : m.queue = queue := startsWith_fifoPrefix.mp hstart
      refine ⟨some m, ⟨?_, ?_⟩, ?_, rfl⟩
      · exact (RowCode.view_eq_some hs.fifo).mpr ⟨hmem, congrArg (·, m.sequence) hqueue⟩
      · intro n hn
        rw [Option.eq_none_iff_forall_ne_some]
        intro m' hm'
        obtain ⟨hmem', haddr⟩ := (RowCode.view_eq_some hs.fifo).mp hm'
        obtain ⟨hqueue', hn'⟩ := Prod.mk.inj haddr
        have hle := hleast _ hmem' (hstarts m' hqueue')
        rw [fifoCode_row_fst, fifoCode_row_fst, hqueue, hqueue', hn', ← not_lt,
          fifoMessageKey_lt_iff] at hle
        exact hle (UInt64.lt_iff_toNat_lt.mp hn)
      · intro m' hm'
        cases hm'
        exact hqueue

theorem frontInTxn_eq (hs : s.QueuesCoded) (queue : QueueName) :
    ∃ front, s.queues.IsFront queue front ∧
      peekFifo s queue = .ok front ∧
      frontInTxn s queue = .ok (front.map fun m => (fifoMessageKey queue m.sequence, m)) := by
  obtain ⟨front, hfront, hqueue, hscan⟩ := exists_front hs queue
  refine ⟨front, hfront, ?_⟩
  unfold peekFifo frontInTxn
  cases hhead : (s.fifoMessages.rangeFrom (fifoPrefix queue)).head? with
  | none =>
      rw [hhead, Option.filter_none, eq_comm, Option.map_eq_none_iff] at hscan
      rw [hscan]
      exact ⟨rfl, rfl⟩
  | some e =>
      obtain ⟨key, value⟩ := e
      rw [hhead, Option.filter_some] at hscan
      dsimp only
      cases hstarts : startsWith key (fifoPrefix queue) with
      | false =>
          rw [hstarts, if_neg Bool.false_ne_true, eq_comm, Option.map_eq_none_iff] at hscan
          rw [hscan, if_neg Bool.false_ne_true, if_neg Bool.false_ne_true]
          exact ⟨rfl, rfl⟩
      | true =>
          rw [hstarts, if_pos rfl, eq_comm, Option.map_eq_some_iff] at hscan
          obtain ⟨m, rfl, hrow⟩ := hscan
          obtain ⟨hkey, rfl⟩ := Prod.mk.inj hrow
          have hdecode : Formats.storedFifoMessage.decode (fifoCode.value m) = .ok m :=
            JsonFormat.decode_encode _ m
          have hkey' : key = fifoMessageKey queue m.sequence := by
            rw [← hkey, ← hqueue m rfl]
            rfl
          rw [if_pos rfl, if_pos rfl, hdecode, hkey']
          exact ⟨rfl, rfl⟩

def withFifo (s : Redb) (fifoMessages : OrderedTable String ByteArray) : Redb :=
  { s with fifoMessages := fifoMessages }

theorem queues_erase (hs : s.QueuesCoded) (queue : QueueName) (n : UInt64) :
    (s.withFifo (s.fifoMessages.erase (fifoMessageKey queue n))).queues =
      { s.queues with waiting := Function.update s.queues.waiting (queue, n) none } := by
  apply Queues.ext
  · rfl
  · exact RowCode.view_erase (a := (queue, n)) hs.fifo
      (RowCode.owns_of_injective fifoCode_key_injective _ _)
  · rfl

theorem queues_insert (hs : s.QueuesCoded) (m : StoredFifoMessage) :
    (s.withFifo (s.fifoMessages.insert (fifoMessageKey m.queue m.sequence)
        (Formats.storedFifoMessage.encode m))).queues =
      { s.queues with
        waiting := Function.update s.queues.waiting (m.queue, m.sequence) (some m) } := by
  apply Queues.ext
  · rfl
  · exact RowCode.view_insert (x := m) hs.fifo
      (RowCode.owns_of_injective fifoCode_key_injective _ _)
  · rfl

theorem updateFifoFront_spec (hs : s.QueuesCoded) (queue : QueueName) (messageId : MessageId)
    (action : FifoFrontAction) :
    ∃ r s', updateFifoFront s queue messageId action = .ok (r, s') ∧ s'.QueuesCoded ∧
      Queues.FrontStep queue messageId action r s.queues s'.queues := by
  obtain ⟨front, hfront, -, htxn⟩ := frontInTxn_eq hs queue
  have hrun : updateFifoFront s queue messageId action = _ := Except.bind_of_ok htxn _
  cases front with
  | none =>
      refine ⟨false, s, hrun, hs, none, hfront, Or.inr ⟨?_, rfl, rfl⟩⟩
      intro m hm
      cases hm
  | some m =>
      dsimp only [Option.map_some] at hrun
      by_cases hid : m.id = messageId
      · rw [if_pos hid] at hrun
        cases action with
        | ack =>
            exact ⟨true, _, hrun, ⟨RowCode.codes_erase hs.fifo _, hs.peers⟩, some m, hfront,
              Or.inl ⟨m, rfl, hid, rfl, queues_erase hs queue m.sequence⟩⟩
        | reject =>
            obtain ⟨-, haddr⟩ := (RowCode.view_eq_some hs.fifo).mp hfront.1
            obtain rfl : m.queue = queue := congrArg Prod.fst haddr
            exact ⟨true, _, hrun, ⟨RowCode.codes_insert hs.fifo
              { m with attempts := m.attempts.saturatingAdd 1 }, hs.peers⟩, some m, hfront,
              Or.inl ⟨m, rfl, hid, rfl, queues_insert hs
                { m with attempts := m.attempts.saturatingAdd 1 }⟩⟩
      · rw [if_neg hid] at hrun
        refine ⟨false, s, hrun, hs, some m, hfront, Or.inr ⟨?_, rfl, rfl⟩⟩
        intro m' hm'
        cases hm'
        exact hid

/-! ## Peer records -/

theorem owns_address (hs : s.QueuesCoded) (hpaired : s.queues.Paired) {state : PeerSyncState}
    (hstate : state.Paired) : peerCode.Owns s.peerSync state.address := by
  intro other hmem hkey
  have hview : s.queues.peers other.address = some other :=
    (RowCode.view_eq_some hs.peers).mpr ⟨hmem, rfl⟩
  have hkey' : peerSyncKey other = peerSyncKey state := by
    rw [← peerCode_key, ← peerCode_key]
    exact hkey
  obtain ⟨hpeer, htopic, horigin⟩ := peerSyncKey_parts hkey'
  exact PeerSyncState.address_eq_of_names (by decide) (hpaired _ _ hview) hstate hpeer htopic
    horigin

def withPeers (s : Redb) (peerSync : OrderedTable String ByteArray) : Redb :=
  { s with peerSync := peerSync }

theorem recordPeerSyncState_spec (hs : s.QueuesCoded) (state : PeerSyncState) :
    ∃ s', recordPeerSyncState s state = .ok ((), s') ∧ s'.QueuesCoded ∧
      (s.queues.Paired → state.Paired → s'.queues = s.queues.record state) := by
  obtain ⟨previous, hprevious, hread⟩ : ∃ previous,
      previousSyncState s (peerSyncKey state) = .ok previous ∧
        (peerCode.Owns s.peerSync state.address → previous = s.queues.peers state.address) := by
    unfold previousSyncState
    rw [← peerCode_key]
    rcases RowCode.get_cases hs.peers state.address with ⟨other, hget, hview⟩ | ⟨hget, hview⟩
    · rw [hget]
      exact ⟨some other, congrArg (Except.map some) (JsonFormat.decode_encode _ other),
        fun howns => (hview howns).symm⟩
    · rw [hget]
      exact ⟨none, rfl, fun _ => hview.symm⟩
  have haddr := state.countFailures_address previous
  have hkey : peerSyncKey state = peerSyncKey (countFailures state previous) := by
    rw [← peerCode_key, ← peerCode_key, haddr]
  refine ⟨s.withPeers (s.peerSync.insert (peerSyncKey (countFailures state previous))
    (Formats.peerSyncState.encode (countFailures state previous))), ?_, ?_, ?_⟩
  · refine (Except.bind_of_ok hprevious _).trans ?_
    rw [← hkey]
    rfl
  · rw [← peerCode_key]
    exact ⟨hs.fifo, RowCode.codes_insert hs.peers (countFailures state previous)⟩
  · intro hpaired hstate
    have howns := owns_address hs hpaired hstate
    have hcounted : peerCode.Owns s.peerSync (countFailures state previous).address := by
      rw [haddr]
      exact howns
    have hview := RowCode.view_insert hs.peers hcounted
    apply Queues.ext
    · rfl
    · rfl
    · rw [← peerCode_key, Queues.record, ← hread howns, ← haddr]
      exact hview

theorem recordPeerSyncState_sameFifo {state : PeerSyncState} {r : Unit} {s' : Redb}
    (h : recordPeerSyncState s state = .ok (r, s')) : Queues.SameFifo s.queues s'.queues := by
  unfold recordPeerSyncState at h
  obtain ⟨previous, -, h⟩ := Except.bind_eq_ok.mp h
  cases h
  exact ⟨rfl, rfl⟩

theorem listPeerSyncStates_spec (hs : s.QueuesCoded) :
    ∃ r, listPeerSyncStates s = .ok r ∧ r.Nodup ∧
      ∀ state, state ∈ r ↔ s.queues.peers state.address = some state := by
  have hall : s.peerSync.rangeFrom "" = s.peerSync.entries := rangeFrom_nil s.peerSync
  unfold listPeerSyncStates
  rw [hall]
  exact RowCode.mapM_entries (c := peerCode) (fun state => JsonFormat.decode_encode _ state)
    hs.peers

/-! ## Refinement -/

theorem exec_queues (hs : s.QueuesCoded) (env : CallEnv) {op : StoreOp}
    (hop : op.onLogs = false) :
    ∃ r s', op.exec s env = .ok (r, s') ∧ s'.QueuesCoded ∧
      (s.queues.PairedFor op → Queues.Step env op r s.queues s'.queues) := by
  cases op with
  | enqueueFifo message =>
      have hexec : StoreOp.exec s env (.enqueueFifo message) = .ok _ := rfl
      obtain ⟨hcoded, hr, hqueues⟩ := queues_enqueue hs hexec
      exact ⟨_, _, hexec, hcoded, fun _ => ⟨hr, hqueues⟩⟩
  | peekFifo queue =>
      obtain ⟨front, hfront, hpeek, -⟩ := frontInTxn_eq hs queue
      have hexec : StoreOp.exec s env (.peekFifo queue) = .ok (front, s) :=
        congrArg (Except.map (·, s)) hpeek
      exact ⟨front, s, hexec, hs, fun _ => ⟨hfront, rfl⟩⟩
  | ackFifo queue messageId =>
      obtain ⟨r, s', hrun, hcoded, hstep⟩ := updateFifoFront_spec hs queue messageId .ack
      exact ⟨r, s', hrun, hcoded, fun _ => hstep⟩
  | rejectFifo queue messageId =>
      obtain ⟨r, s', hrun, hcoded, hstep⟩ := updateFifoFront_spec hs queue messageId .reject
      exact ⟨r, s', hrun, hcoded, fun _ => hstep⟩
  | recordPeerSyncState state =>
      obtain ⟨s', hrun, hcoded, hqueues⟩ := recordPeerSyncState_spec hs state
      exact ⟨(), s', hrun, hcoded, fun hpaired => hqueues (hpaired state rfl).1 (hpaired state rfl).2⟩
  | listPeerSyncStates =>
      obtain ⟨r, hrun, hnodup, hmem⟩ := listPeerSyncStates_spec hs
      have hexec : StoreOp.exec s env .listPeerSyncStates = .ok (r, s) :=
        congrArg (Except.map (·, s)) hrun
      exact ⟨r, s, hexec, hs, fun _ => ⟨hnodup, hmem, rfl⟩⟩
  | _ => cases hop

theorem SameQueues.queues_eq {s' : Redb} (h : SameQueues s s') : s'.queues = s.queues := by
  unfold queues
  rw [h.fifoMessages, h.fifoSequences, h.peerSync]

theorem SameQueues.queuesCoded {s' : Redb} (h : SameQueues s s') (hs : s.QueuesCoded) :
    s'.QueuesCoded where
  fifo := h.fifoMessages ▸ hs.fifo
  peers := h.peerSync ▸ hs.peers

theorem exec_refines_queues (hs : s.Inv) (hq : s.QueuesCoded) {env : CallEnv} {op : StoreOp}
    {r : op.Result} {s' : Redb} (h : op.exec s env = .ok (r, s')) :
    s'.QueuesCoded ∧
      (s.queues.PairedFor op → Queues.Step env op r s.queues s'.queues) := by
  cases hop : op.onLogs with
  | true =>
      have hout := exec_outcome hs env op
      rw [h] at hout
      have hsame := hout.2.2 hop
      refine ⟨hsame.queuesCoded hq, fun _ => ?_⟩
      rw [hsame.queues_eq]
      exact Queues.step_of_onLogs hop
  | false =>
      obtain ⟨r', t, hexec, hcoded, hstep⟩ := exec_queues hq env hop
      rw [h] at hexec
      cases hexec
      exact ⟨hcoded, hstep⟩

theorem queues_openEmpty : openEmpty.queues = Queues.empty := rfl

theorem queuesCoded_openEmpty : openEmpty.QueuesCoded :=
  ⟨RowCode.codes_empty, RowCode.codes_empty⟩

end Msgbus.Redb

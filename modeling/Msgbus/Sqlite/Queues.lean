import Msgbus.Lib.CodedTable
import Msgbus.Queues
import Msgbus.Sqlite.Refines

/-!
# Queues and peer records in SQLite

The tables of queues and peers as coded tables, and what each call does to the
abstract queues they hold.  A row is checked again when it is read, so a call
may fail on a stored message whose names its constructors would not admit.
-/

namespace Msgbus

def StoredFifoMessage.Readable (m : StoredFifoMessage) : Prop :=
  ValidPart m.id.value ∧ ValidPart m.queue.value ∧ ValidPart m.topic.value

def Queues.ReadableFront (q : Queues) (queue : QueueName) : Prop :=
  ∀ m, q.IsFront queue (some m) → m.Readable

namespace Sqlite

variable [Formats] {s : Sqlite}

def readFifo (pk : FifoPk) (row : FifoRow) : Option StoredFifoMessage := do
  let source ← (Formats.nodeId.decodeJson row.sourceJson).toOption
  let target ← (Formats.nodeId.decodeJson row.targetJson).toOption
  let headers ← (Formats.headers.decodeJson row.headersJson).toOption
  some ⟨⟨row.id⟩, ⟨pk.queue⟩, ⟨row.topic⟩, source, target, row.payload, headers,
    UInt64.ofNat row.createdAtMs.toNat, UInt64.ofNat pk.sequence.toNat, row.attempts⟩

def fifoRow (m : StoredFifoMessage) : FifoRow :=
  ⟨m.id.value, m.topic.value, Formats.nodeId.toStr m.source, Formats.nodeId.toStr m.target,
    m.payload, Formats.headers.toStr m.headers, m.createdAtMs.toNat, m.attempts⟩

def fifoCode : RowCode (QueueName × UInt64) StoredFifoMessage FifoPk FifoRow where
  key a := ⟨a.1.value, a.2.toNat⟩
  addr m := (m.queue, m.sequence)
  value := fifoRow
  read := readFifo
  read_value m := by simp [readFifo, fifoRow, Except.toOption]

def peerCode : RowCode PeerKey PeerSyncState PeerSyncPk String where
  key a := ⟨a.peer, a.topic.elim "" Topic.value, a.origin.elim "" id⟩
  addr := PeerSyncState.address
  value := Formats.peerSyncState.toStr
  read _ value := (Formats.peerSyncState.decodeJson value).toOption
  read_value state := by
    rw [JsonFormat.decodeJson_toStr]
    rfl

theorem peerCode_key (state : PeerSyncState) :
    peerCode.key state.address =
      ⟨state.peer, (peerSyncKeys state).1, (peerSyncKeys state).2⟩ := by
  obtain ⟨peer, topic, origin⟩ := state
  cases origin with
  | none => rfl
  | some node => rfl

theorem fifoCode_key_injective : Function.Injective fifoCode.key := by
  intro a b h
  obtain ⟨hqueue, hn⟩ := FifoPk.mk.inj h
  exact Prod.ext (QueueName.value_injective hqueue)
    (UInt64.toNat_inj.mp (Int.natCast_inj.mp hn))

structure QueuesCoded (s : Sqlite) : Prop where
  fifo : fifoCode.Codes s.fifoMessages
  fits : ∀ m, fifoCode.row m ∈ s.fifoMessages.entries → Fits m.sequence
  sequences : ∀ e ∈ s.fifoSequences.entries, ∃ n : UInt64, e.2 = n.toNat
  peers : peerCode.Codes s.peerSyncStates

def queues (s : Sqlite) : Queues where
  last queue := ((s.fifoSequences.get queue.value).map fun n => UInt64.ofNat n.toNat).getD 0
  waiting := fifoCode.view s.fifoMessages
  peers := peerCode.view s.peerSyncStates

/-! ## Enqueueing -/

theorem selectSequence_eq (hs : s.QueuesCoded) (queue : QueueName) :
    selectSequence s queue = .ok (s.queues.last queue) := by
  unfold selectSequence queues
  dsimp only
  cases hget : s.fifoSequences.get queue.value with
  | none => rfl
  | some value =>
      obtain ⟨n, hn⟩ := hs.sequences _ (OrderedTable.get_eq_some_iff.mp hget)
      have hvalue : value = (n.toNat : Int) := hn
      rw [hvalue]
      simp

structure AcceptsEnqueue (q : Queues) (m : NewFifoMessage) (now : UInt64) : Prop where
  sequence : Fits (q.enqueued m now).sequence
  free : q.waiting (m.queue, (q.enqueued m now).sequence) = none
  id : ∀ a m', q.waiting a = some m' → m'.id ≠ m.id
  createdAtMs : Fits now

def withEnqueued (s : Sqlite) (m : StoredFifoMessage) : Sqlite :=
  { s with
    fifoSequences := s.fifoSequences.insert m.queue.value m.sequence.toNat
    fifoMessages := s.fifoMessages.insert (fifoCode.row m).1 (fifoCode.row m).2 }

/-- The primary key and the id of a message are free in the table exactly when
nothing waits there and nothing waiting has the id. -/
theorem free_iff (hs : s.QueuesCoded) (m : StoredFifoMessage) :
    (s.fifoMessages.get (fifoCode.row m).1 = none ∧
        ∀ e ∈ s.fifoMessages.entries, e.2.id ≠ m.id.value) ↔
      s.queues.waiting (m.queue, m.sequence) = none ∧
        ∀ a m', s.queues.waiting a = some m' → m'.id ≠ m.id := by
  have howns := RowCode.owns_of_injective fifoCode_key_injective s.fifoMessages (fifoCode.addr m)
  apply and_congr
  · change s.fifoMessages.get (fifoCode.key (fifoCode.addr m)) = none ↔ _
    rw [RowCode.get_eq hs.fifo howns, Option.map_eq_none_iff]
    rfl
  · constructor
    · intro hfree a m' hm' hid
      obtain ⟨hmem, -⟩ := (RowCode.view_eq_some hs.fifo).mp hm'
      exact hfree _ hmem (congrArg MessageId.value hid)
    · intro hfree e he hid
      obtain ⟨m', rfl⟩ := hs.fifo e he
      have hm' : s.queues.waiting (fifoCode.addr m') = some m' :=
        (RowCode.view_eq_some hs.fifo).mpr ⟨he, rfl⟩
      exact hfree _ m' hm' (MessageId.value_injective hid)

theorem enqueueFifo_eq_ok (hs : s.QueuesCoded) {m : NewFifoMessage} {now : UInt64}
    {r : StoredFifoMessage} {s' : Sqlite} :
    enqueueFifo s m now = .ok (r, s') ↔
      AcceptsEnqueue s.queues m now ∧ r = s.queues.enqueued m now ∧
        s' = s.withEnqueued (s.queues.enqueued m now) := by
  unfold enqueueFifo
  rw [Except.bind_of_ok (selectSequence_eq hs m.queue)]
  simp only [Except.bind_eq_ok, u64ToI64_eq_ok, insertFifo, uniqueInsert_eq_ok]
  have hfree := free_iff hs (s.queues.enqueued m now)
  constructor
  · rintro ⟨_, ⟨hsequence, rfl⟩, _, ⟨hnow, rfl⟩, _, ⟨hinsert, rfl⟩, hr⟩
    obtain ⟨hplace, hid⟩ := hfree.mp hinsert
    cases hr
    exact ⟨⟨hsequence, hplace, hid, hnow⟩, rfl, rfl⟩
  · rintro ⟨haccepts, rfl, rfl⟩
    exact ⟨_, ⟨haccepts.sequence, rfl⟩, _, ⟨haccepts.createdAtMs, rfl⟩, _,
      ⟨hfree.mpr ⟨haccepts.free, haccepts.id⟩, rfl⟩, rfl⟩

theorem queuesCoded_withEnqueued (hs : s.QueuesCoded) {m : StoredFifoMessage}
    (hm : Fits m.sequence) : (s.withEnqueued m).QueuesCoded where
  fifo := RowCode.codes_insert hs.fifo m
  fits := by
    intro m' hm'
    rcases OrderedTable.mem_entries_insert.mp hm' with hrow | ⟨hmem, -⟩
    · rw [RowCode.row_injective hrow]
      exact hm
    · exact hs.fits m' hmem
  sequences := by
    intro e he
    rcases OrderedTable.mem_entries_insert.mp he with rfl | ⟨hmem, -⟩
    · exact ⟨m.sequence, rfl⟩
    · exact hs.sequences e hmem
  peers := hs.peers

theorem queues_withEnqueued (hs : s.QueuesCoded) (m : NewFifoMessage) (now : UInt64) :
    (s.withEnqueued (s.queues.enqueued m now)).queues = s.queues.enqueue m now := by
  apply Queues.ext
  · funext queue
    change (((s.fifoSequences.insert m.queue.value _).get queue.value).map _).getD 0 =
      Function.update s.queues.last m.queue _ queue
    rw [OrderedTable.get_insert, Function.update_apply]
    by_cases hqueue : queue = m.queue
    · rw [if_pos (congrArg QueueName.value hqueue), if_pos hqueue]
      simp
    · rw [if_neg (fun hvalue => hqueue (QueueName.value_injective hvalue)), if_neg hqueue]
      rfl
  · exact RowCode.view_insert (x := s.queues.enqueued m now) hs.fifo
      (RowCode.owns_of_injective fifoCode_key_injective _ _)
  · rfl

/-! ## The front of a queue -/

theorem rowToFifo_eq_ok {m m' : StoredFifoMessage} :
    rowToFifo (fifoCode.row m).1 (fifoCode.row m).2 = .ok m' ↔ m.Readable ∧ m' = m := by
  unfold rowToFifo
  rw [Except.mapError_eq_ok]
  simp only [RowCode.row, fifoCode, fifoRow, Except.bind_eq_ok, i64ToU64_natCast,
    MessageId.fromString_eq_ok, QueueName.new_eq_ok, Topic.new_eq_ok, JsonFormat.decodeJson_toStr,
    Except.ok.injEq, pure, Except.pure]
  constructor
  · rintro ⟨_, rfl, _, rfl, _, ⟨hid, rfl⟩, _, ⟨hqueue, rfl⟩, _, ⟨htopic, rfl⟩, _, rfl, _, rfl, _,
      rfl, rfl⟩
    exact ⟨⟨hid, hqueue, htopic⟩, rfl⟩
  · rintro ⟨⟨hid, hqueue, htopic⟩, rfl⟩
    exact ⟨_, rfl, _, rfl, _, ⟨hid, rfl⟩, _, ⟨hqueue, rfl⟩, _, ⟨htopic, rfl⟩, _, rfl, _, rfl, _,
      rfl, rfl⟩

omit [Formats] in
theorem fifoPk_lt_iff {queue : String} {n n' : UInt64} :
    (⟨queue, n.toNat⟩ : FifoPk) < ⟨queue, n'.toNat⟩ ↔ n.toNat < n'.toNat := by
  change toLex (queue, (n.toNat : Int)) < toLex (queue, (n'.toNat : Int)) ↔ _
  simp [Prod.Lex.toLex_lt_toLex]

theorem exists_front (hs : s.QueuesCoded) (queue : QueueName) :
    ∃ front, s.queues.IsFront queue front ∧
      (s.fifoMessages.entries.filter fun entry => entry.1.queue = queue.value).head? =
        front.map fifoCode.row := by
  have hselects : ∀ m : StoredFifoMessage, m.queue = queue →
      decide ((fifoCode.row m).1.queue = queue.value) = true :=
    fun m hm => decide_eq_true (congrArg QueueName.value hm)
  cases hhead : (s.fifoMessages.entries.filter fun entry =>
      entry.1.queue = queue.value).head? with
  | none =>
      refine ⟨none, ?_, rfl⟩
      intro n
      rw [Option.eq_none_iff_forall_ne_some]
      intro m hm
      obtain ⟨hmem, haddr⟩ := (RowCode.view_eq_some hs.fifo).mp hm
      rw [List.head?_eq_none_iff, List.filter_eq_nil_iff] at hhead
      exact hhead _ hmem (hselects m (congrArg Prod.fst haddr))
  | some e =>
      obtain ⟨hmem, hselect, hleast⟩ := OrderedTable.of_head?_filter hhead
      obtain ⟨m, rfl⟩ := hs.fifo e hmem
      have hqueue : m.queue = queue :=
        QueueName.value_injective (of_decide_eq_true hselect)
      refine ⟨some m, ⟨?_, ?_⟩, rfl⟩
      · exact (RowCode.view_eq_some hs.fifo).mpr ⟨hmem, congrArg (·, m.sequence) hqueue⟩
      · intro n hn
        rw [Option.eq_none_iff_forall_ne_some]
        intro m' hm'
        obtain ⟨hmem', haddr⟩ := (RowCode.view_eq_some hs.fifo).mp hm'
        obtain ⟨hqueue', hn'⟩ := Prod.mk.inj haddr
        have hle : (⟨m.queue.value, m.sequence.toNat⟩ : FifoPk) ≤
            ⟨m'.queue.value, m'.sequence.toNat⟩ := hleast _ hmem' (hselects m' hqueue')
        rw [hqueue, hqueue', hn', ← not_lt, fifoPk_lt_iff] at hle
        exact hle (UInt64.lt_iff_toNat_lt.mp hn)

theorem selectFront_eq_ok (hs : s.QueuesCoded) {queue : QueueName}
    {front : Option StoredFifoMessage} :
    selectFront s queue = .ok front ↔
      s.queues.IsFront queue front ∧ ∀ m, front = some m → m.Readable := by
  obtain ⟨found, hfound, hhead⟩ := exists_front hs queue
  unfold selectFront
  rw [hhead]
  cases found with
  | none =>
      constructor
      · intro h
        cases h
        exact ⟨hfound, fun m hm => by cases hm⟩
      · rintro ⟨hfront, -⟩
        cases hfound.unique hfront
        rfl
  | some m =>
      constructor
      · intro h
        obtain ⟨m', hread, rfl⟩ := Except.map_eq_ok.mp h
        obtain ⟨hreadable, rfl⟩ := rowToFifo_eq_ok.mp hread
        exact ⟨hfound, fun m hm => by cases hm; exact hreadable⟩
      · rintro ⟨hfront, hreadable⟩
        rw [← hfound.unique hfront] at hreadable ⊢
        exact Except.map_eq_ok.mpr ⟨m, rowToFifo_eq_ok.mpr ⟨hreadable m rfl, rfl⟩, rfl⟩

def withFifo (s : Sqlite) (fifoMessages : OrderedTable FifoPk FifoRow) : Sqlite :=
  { s with fifoMessages := fifoMessages }

theorem queuesCoded_erase (hs : s.QueuesCoded) (pk : FifoPk) :
    (s.withFifo (s.fifoMessages.erase pk)).QueuesCoded where
  fifo := RowCode.codes_erase hs.fifo pk
  fits := fun m hm => hs.fits m (OrderedTable.mem_entries_erase.mp hm).1
  sequences := hs.sequences
  peers := hs.peers

theorem queues_erase (hs : s.QueuesCoded) (queue : QueueName) (n : UInt64) :
    (s.withFifo (s.fifoMessages.erase ⟨queue.value, n.toNat⟩)).queues =
      { s.queues with waiting := Function.update s.queues.waiting (queue, n) none } := by
  apply Queues.ext
  · rfl
  · exact RowCode.view_erase (a := (queue, n)) hs.fifo
      (RowCode.owns_of_injective fifoCode_key_injective _ _)
  · rfl

theorem queuesCoded_insert (hs : s.QueuesCoded) {m : StoredFifoMessage} (hm : Fits m.sequence) :
    (s.withFifo (s.fifoMessages.insert (fifoCode.row m).1 (fifoCode.row m).2)).QueuesCoded where
  fifo := RowCode.codes_insert hs.fifo m
  fits := (queuesCoded_withEnqueued hs hm).fits
  sequences := hs.sequences
  peers := hs.peers

theorem queues_insert (hs : s.QueuesCoded) (m : StoredFifoMessage) :
    (s.withFifo (s.fifoMessages.insert (fifoCode.row m).1 (fifoCode.row m).2)).queues =
      { s.queues with
        waiting := Function.update s.queues.waiting (m.queue, m.sequence) (some m) } := by
  apply Queues.ext
  · rfl
  · exact RowCode.view_insert (x := m) hs.fifo
      (RowCode.owns_of_injective fifoCode_key_injective _ _)
  · rfl

def AcceptsQueues (q : Queues) (env : CallEnv) : StoreOp → Prop
  | .enqueueFifo m => AcceptsEnqueue q m env.now
  | .peekFifo queue => q.ReadableFront queue
  | .ackFifo queue _ => q.ReadableFront queue
  | .rejectFifo queue _ => q.ReadableFront queue
  | _ => True

def QueuesOutcome (s : Sqlite) (env : CallEnv) (op : StoreOp) :
    Except MsgbusError (op.Result × Sqlite) → Prop
  | .ok (r, s') => AcceptsQueues s.queues env op ∧ s'.QueuesCoded ∧
      (s.queues.PairedFor op → Queues.Step env op r s.queues s'.queues)
  | .error _ => ¬ AcceptsQueues s.queues env op

/-- The front of a queue is selected exactly when it can be read back. -/
theorem selectFront_cases (hs : s.QueuesCoded) (queue : QueueName) :
    (∃ front, selectFront s queue = .ok front ∧ s.queues.IsFront queue front ∧
        s.queues.ReadableFront queue) ∨
      (∃ e, selectFront s queue = .error e) ∧ ¬ s.queues.ReadableFront queue := by
  obtain ⟨front, hfront, -⟩ := exists_front hs queue
  cases hselect : selectFront s queue with
  | ok selected =>
      obtain ⟨hselected, hreadable⟩ := (selectFront_eq_ok hs).mp hselect
      exact Or.inl ⟨selected, rfl, hselected, fun m hm => hreadable m (hselected.unique hm)⟩
  | error e =>
      refine Or.inr ⟨⟨e, rfl⟩, fun hreadable => ?_⟩
      have hok := (selectFront_eq_ok hs).mpr ⟨hfront, fun m hm => hreadable m (hm ▸ hfront)⟩
      cases hselect.symm.trans hok

theorem updateFifoFront_cases (hs : s.QueuesCoded) (queue : QueueName) (messageId : MessageId)
    (action : FifoFrontAction) :
    (∃ r s', updateFifoFront s queue messageId action = .ok (r, s') ∧ s'.QueuesCoded ∧
        Queues.FrontStep queue messageId action r s.queues s'.queues ∧
        s.queues.ReadableFront queue) ∨
      (∃ e, updateFifoFront s queue messageId action = .error e) ∧
        ¬ s.queues.ReadableFront queue := by
  rcases selectFront_cases hs queue with ⟨front, hselect, hfront, hreadable⟩ |
    ⟨⟨e, hselect⟩, hunreadable⟩
  · left
    have hrun : updateFifoFront s queue messageId action = _ := Except.bind_of_ok hselect _
    cases front with
    | none =>
        refine ⟨false, s, hrun, hs, ⟨none, hfront, Or.inr ⟨?_, rfl, rfl⟩⟩, hreadable⟩
        intro m hm
        cases hm
    | some m =>
        dsimp only at hrun
        obtain ⟨hmem, haddr⟩ := (RowCode.view_eq_some hs.fifo).mp hfront.1
        obtain rfl : m.queue = queue := congrArg Prod.fst haddr
        have hfits := hs.fits m hmem
        by_cases hid : m.id = messageId
        · rw [if_pos hid, Except.bind_of_ok (u64ToI64_eq_ok.mpr ⟨hfits, rfl⟩)] at hrun
          cases action with
          | ack =>
              exact ⟨true, _, hrun, queuesCoded_erase hs _, ⟨some m, hfront,
                Or.inl ⟨m, rfl, hid, rfl, queues_erase hs m.queue m.sequence⟩⟩, hreadable⟩
          | reject =>
              let retried : StoredFifoMessage :=
                { m with attempts := m.attempts.saturatingAdd 1 }
              have hget : s.fifoMessages.get ⟨m.queue.value, m.sequence.toNat⟩ =
                  some (fifoRow m) := OrderedTable.get_eq_some_iff.mpr hmem
              dsimp only at hrun
              rw [OrderedTable.mapValues_eq_insert hget (fun pk hpk row => if_neg hpk),
                if_pos rfl] at hrun
              exact ⟨true, _, hrun, queuesCoded_insert (m := retried) hs hfits, ⟨some m, hfront,
                Or.inl ⟨m, rfl, hid, rfl, queues_insert hs retried⟩⟩, hreadable⟩
        · rw [if_neg hid] at hrun
          refine ⟨false, s, hrun, hs, ⟨some m, hfront, Or.inr ⟨?_, rfl, rfl⟩⟩, hreadable⟩
          intro m' hm'
          cases hm'
          exact hid
  · refine Or.inr ⟨⟨e, ?_⟩, hunreadable⟩
    unfold updateFifoFront
    rw [hselect]
    rfl

/-! ## Peer records -/

theorem owns_address (hs : s.QueuesCoded) (hpaired : s.queues.Paired) {state : PeerSyncState}
    (hstate : state.Paired) : peerCode.Owns s.peerSyncStates state.address := by
  intro other hmem hkey
  have hview : s.queues.peers other.address = some other :=
    (RowCode.view_eq_some hs.peers).mpr ⟨hmem, rfl⟩
  have hkey' : peerCode.key other.address = peerCode.key state.address := hkey
  rw [peerCode_key, peerCode_key] at hkey'
  obtain ⟨hpeer, htopic, horigin⟩ := PeerSyncPk.mk.inj hkey'
  exact PeerSyncState.address_eq_of_names (by decide) (hpaired _ _ hview) hstate hpeer htopic
    horigin

def withPeers (s : Sqlite) (peerSyncStates : OrderedTable PeerSyncPk String) : Sqlite :=
  { s with peerSyncStates := peerSyncStates }

theorem recordPeerSyncState_spec (hs : s.QueuesCoded) (state : PeerSyncState) :
    ∃ s', recordPeerSyncState s state = .ok ((), s') ∧ s'.QueuesCoded ∧
      (s.queues.Paired → state.Paired → s'.queues = s.queues.record state) := by
  obtain ⟨previous, hprevious, hread⟩ : ∃ previous,
      previousSyncState s ⟨state.peer, (peerSyncKeys state).1, (peerSyncKeys state).2⟩ =
          .ok previous ∧
        (peerCode.Owns s.peerSyncStates state.address →
          previous = s.queues.peers state.address) := by
    unfold previousSyncState
    rw [← peerCode_key]
    rcases RowCode.get_cases hs.peers state.address with ⟨other, hget, hview⟩ | ⟨hget, hview⟩
    · rw [hget]
      exact ⟨some other, congrArg (Except.map some) (JsonFormat.decodeJson_toStr _ other),
        fun howns => (hview howns).symm⟩
    · rw [hget]
      exact ⟨none, rfl, fun _ => hview.symm⟩
  have haddr := state.countFailures_address previous
  have hrow : (⟨state.peer, (peerSyncKeys state).1, (peerSyncKeys state).2⟩ : PeerSyncPk) =
      (peerCode.row (countFailures state previous)).1 := by
    rw [← peerCode_key, ← haddr]
    rfl
  refine ⟨s.withPeers (s.peerSyncStates.insert (peerCode.row (countFailures state previous)).1
    (peerCode.row (countFailures state previous)).2), ?_, ?_, ?_⟩
  · refine (Except.bind_of_ok hprevious _).trans ?_
    rw [← hrow]
    rfl
  · exact ⟨hs.fifo, hs.fits, hs.sequences, RowCode.codes_insert hs.peers _⟩
  · intro hpaired hstate
    have howns := owns_address hs hpaired hstate
    have hcounted : peerCode.Owns s.peerSyncStates (countFailures state previous).address := by
      rw [haddr]
      exact howns
    have hview := RowCode.view_insert hs.peers hcounted
    apply Queues.ext
    · rfl
    · rfl
    · rw [Queues.record, ← hread howns, ← haddr]
      exact hview

theorem recordPeerSyncState_sameFifo {state : PeerSyncState} {r : Unit} {s' : Sqlite}
    (h : recordPeerSyncState s state = .ok (r, s')) : Queues.SameFifo s.queues s'.queues := by
  unfold recordPeerSyncState at h
  obtain ⟨previous, -, h⟩ := Except.bind_eq_ok.mp h
  cases h
  exact ⟨rfl, rfl⟩

theorem listPeerSyncStates_spec (hs : s.QueuesCoded) :
    ∃ r, listPeerSyncStates s = .ok r ∧ r.Nodup ∧
      ∀ state, state ∈ r ↔ s.queues.peers state.address = some state := by
  refine RowCode.mapM_entries (c := peerCode) (fun state => ?_) hs.peers
  exact congrArg (Except.mapError storageErr) (JsonFormat.decodeJson_toStr _ state)

/-! ## Refinement -/

theorem exec_queues (hs : s.QueuesCoded) (env : CallEnv) {op : StoreOp}
    (hop : op.onLogs = false) : QueuesOutcome s env op (op.exec s env) := by
  cases op with
  | enqueueFifo message =>
      change QueuesOutcome s env (.enqueueFifo message) (enqueueFifo s message env.now)
      cases hrun : enqueueFifo s message env.now with
      | error e =>
          intro haccepts
          rw [(enqueueFifo_eq_ok hs).mpr ⟨haccepts, rfl, rfl⟩] at hrun
          cases hrun
      | ok result =>
          obtain ⟨r, s'⟩ := result
          obtain ⟨haccepts, rfl, rfl⟩ := (enqueueFifo_eq_ok hs).mp hrun
          exact ⟨haccepts, queuesCoded_withEnqueued hs haccepts.sequence,
            fun _ => ⟨rfl, queues_withEnqueued hs message env.now⟩⟩
  | peekFifo queue =>
      change QueuesOutcome s env (.peekFifo queue) ((selectFront s queue).map (·, s))
      rcases selectFront_cases hs queue with ⟨front, hrun, hfront, hreadable⟩ | ⟨⟨e, hrun⟩, hunreadable⟩
      · rw [hrun]
        exact ⟨hreadable, hs, fun _ => ⟨hfront, rfl⟩⟩
      · rw [hrun]
        exact hunreadable
  | ackFifo queue messageId =>
      change QueuesOutcome s env (.ackFifo queue messageId) (updateFifoFront s queue messageId .ack)
      rcases updateFifoFront_cases hs queue messageId .ack with
        ⟨r, s', hrun, hcoded, hstep, hreadable⟩ | ⟨⟨e, hrun⟩, hunreadable⟩
      · rw [hrun]
        exact ⟨hreadable, hcoded, fun _ => hstep⟩
      · rw [hrun]
        exact hunreadable
  | rejectFifo queue messageId =>
      change QueuesOutcome s env (.rejectFifo queue messageId)
        (updateFifoFront s queue messageId .reject)
      rcases updateFifoFront_cases hs queue messageId .reject with
        ⟨r, s', hrun, hcoded, hstep, hreadable⟩ | ⟨⟨e, hrun⟩, hunreadable⟩
      · rw [hrun]
        exact ⟨hreadable, hcoded, fun _ => hstep⟩
      · rw [hrun]
        exact hunreadable
  | recordPeerSyncState state =>
      obtain ⟨s', hrun, hcoded, hqueues⟩ := recordPeerSyncState_spec hs state
      change QueuesOutcome s env (.recordPeerSyncState state) (recordPeerSyncState s state)
      rw [hrun]
      exact ⟨trivial, hcoded, fun hpaired => hqueues (hpaired state rfl).1 (hpaired state rfl).2⟩
  | listPeerSyncStates =>
      obtain ⟨r, hrun, hnodup, hmem⟩ := listPeerSyncStates_spec hs
      change QueuesOutcome s env .listPeerSyncStates ((listPeerSyncStates s).map (·, s))
      rw [hrun]
      exact ⟨trivial, hs, fun _ => ⟨hnodup, hmem, rfl⟩⟩
  | _ => cases hop

theorem SameQueues.queues_eq {s' : Sqlite} (h : SameQueues s s') : s'.queues = s.queues := by
  unfold queues
  rw [h.fifoMessages, h.fifoSequences, h.peerSyncStates]

theorem SameQueues.queuesCoded {s' : Sqlite} (h : SameQueues s s') (hs : s.QueuesCoded) :
    s'.QueuesCoded where
  fifo := h.fifoMessages ▸ hs.fifo
  fits := h.fifoMessages ▸ hs.fits
  sequences := h.fifoSequences ▸ hs.sequences
  peers := h.peerSyncStates ▸ hs.peers

theorem exec_refines_queues (hs : s.Inv) (hq : s.QueuesCoded) {env : CallEnv} {op : StoreOp}
    {r : op.Result} {s' : Sqlite} (h : op.exec s env = .ok (r, s')) :
    s'.QueuesCoded ∧
      (s.queues.PairedFor op → Queues.Step env op r s.queues s'.queues) := by
  cases hop : op.onLogs with
  | true =>
      have hout := exec_outcome hs env op
      rw [h] at hout
      have hsame := hout.2.2 hop
      refine ⟨hsame.queuesCoded hq, fun _ => ?_⟩
      rw [hsame.queues_eq]
      exact Queues.step_of_onLogs hop
  | false =>
      have hout := exec_queues hq env hop
      rw [h] at hout
      exact hout.2

theorem queues_openEmpty : openEmpty.queues = Queues.empty := rfl

theorem queuesCoded_openEmpty : openEmpty.QueuesCoded where
  fifo := RowCode.codes_empty
  fits := fun m hm => by cases hm
  sequences := fun e he => by cases he
  peers := RowCode.codes_empty

end Sqlite

end Msgbus

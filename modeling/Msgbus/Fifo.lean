import Msgbus.Guarantees
import Msgbus.Redb.Queues
import Msgbus.Sqlite.Queues

/-!
# FIFO queues are lists

Each queue of either backend behaves as a list: an enqueue appends, the front is
the first element, and an acknowledgement or rejection acts on the first element
only.  Over a run, what was acknowledged on a queue is a beginning of what was
enqueued on it and the rest still waits, in order.
-/

namespace Msgbus

namespace Queues

variable {q : Queues} {queue : QueueName} {m : StoredFifoMessage}

def list (q : Queues) (queue : QueueName) : List StoredFifoMessage :=
  (List.range (q.last queue).toNat).filterMap fun i => q.waiting (queue, UInt64.ofNat (i + 1))

theorem toNat_ofNat_place {i : Nat} (hi : i < (q.last queue).toNat) :
    (UInt64.ofNat (i + 1)).toNat = i + 1 := by
  have hlt := (q.last queue).toNat_lt
  rw [UInt64.toNat_ofNat']
  apply Nat.mod_eq_of_lt
  omega

theorem mem_list (hq : q.WellFormed) :
    m ∈ q.list queue ↔ q.waiting (queue, m.sequence) = some m := by
  unfold list
  rw [List.mem_filterMap]
  constructor
  · rintro ⟨i, -, hm⟩
    rw [(hq.positioned _ _ m hm).2]
    exact hm
  · intro hm
    have hpos := hq.positive _ _ m hm
    have hle := hq.bounded _ _ m hm
    refine ⟨m.sequence.toNat - 1, List.mem_range.mpr (by omega), ?_⟩
    rw [show m.sequence.toNat - 1 + 1 = m.sequence.toNat by omega, UInt64.ofNat_toNat]
    exact hm

theorem list_sorted (hq : q.WellFormed) :
    (q.list queue).Pairwise fun a b => a.sequence.toNat < b.sequence.toNat := by
  unfold list
  rw [List.pairwise_filterMap]
  refine List.pairwise_lt_range.imp_of_mem ?_
  intro i j hi hj hlt a ha b hb
  rw [(hq.positioned _ _ a ha).2, (hq.positioned _ _ b hb).2,
    toNat_ofNat_place (List.mem_range.mp hi), toNat_ofNat_place (List.mem_range.mp hj)]
  omega

theorem list_eq (hq : q.WellFormed) {l : List StoredFifoMessage}
    (hsorted : l.Pairwise fun a b => a.sequence.toNat < b.sequence.toNat)
    (hmem : ∀ m, m ∈ l ↔ q.waiting (queue, m.sequence) = some m) : q.list queue = l := by
  have hnodup : ∀ {l : List StoredFifoMessage},
      l.Pairwise (fun a b => a.sequence.toNat < b.sequence.toNat) → l.Nodup := by
    intro l h
    refine h.imp ?_
    rintro a b hlt rfl
    exact lt_irrefl _ hlt
  have hperm : (q.list queue).Perm l :=
    (List.perm_ext_iff_of_nodup (hnodup (list_sorted hq)) (hnodup hsorted)).mpr
      fun m => (mem_list hq).trans (hmem m).symm
  refine hperm.eq_of_pairwise ?_ (list_sorted hq) hsorted
  intro a b _ _ hab hba
  exact absurd (hab.trans hba) (lt_irrefl _)

theorem list_congr {q' : Queues} (hlast : q'.last queue = q.last queue)
    (hwaiting : ∀ n, q'.waiting (queue, n) = q.waiting (queue, n)) :
    q'.list queue = q.list queue := by
  unfold list
  rw [hlast]
  exact List.filterMap_congr fun i _ => hwaiting _

/-! ## Enqueueing -/

theorem list_enqueue_self (hq : q.WellFormed) (msg : NewFifoMessage) (now : UInt64)
    (hlimit : q.last msg.queue ≠ UInt64.maxValue) :
    (q.enqueue msg now).list msg.queue = q.list msg.queue ++ [q.enqueued msg now] := by
  have hlast : (q.enqueued msg now).sequence.toNat = (q.last msg.queue).toNat + 1 := by
    have hne : (q.last msg.queue).toNat ≠ UInt64.maxValue.toNat :=
      fun heq => hlimit (UInt64.toNat_inj.mp heq)
    have hlt := (q.last msg.queue).toNat_lt
    change ((q.last msg.queue).saturatingAdd 1).toNat = _
    rw [UInt64.toNat_saturatingAdd_one]
    rw [UInt64.toNat_maxValue] at hne
    omega
  -- everything that waits is below the new sequence
  have hbelow : ∀ a ∈ q.list msg.queue, a.sequence.toNat < (q.enqueued msg now).sequence.toNat := by
    intro a ha
    have hle := hq.bounded _ _ a ((mem_list hq).mp ha)
    omega
  apply list_eq (wellFormed_enqueue hq msg now)
  · rw [List.pairwise_append]
    refine ⟨list_sorted hq, List.pairwise_singleton _ _, ?_⟩
    intro a ha b hb
    rw [List.mem_singleton.mp hb]
    exact hbelow a ha
  · intro a
    change _ ↔ Function.update q.waiting (msg.queue, (q.enqueued msg now).sequence)
      (some (q.enqueued msg now)) (msg.queue, a.sequence) = some a
    rw [List.mem_append, List.mem_singleton, Function.update_apply]
    split_ifs with hplace
    · have hsequence := (Prod.mk.inj hplace).2
      constructor
      · rintro (ha | rfl)
        · have hlt := hbelow a ha
          rw [hsequence] at hlt
          exact absurd hlt (lt_irrefl _)
        · rfl
      · intro ha
        exact Or.inr (Option.some.inj ha).symm
    · rw [← mem_list hq]
      constructor
      · rintro (ha | rfl)
        · exact ha
        · exact absurd rfl hplace
      · exact Or.inl

theorem list_enqueue_of_ne (msg : NewFifoMessage) (now : UInt64) (h : queue ≠ msg.queue) :
    (q.enqueue msg now).list queue = q.list queue := by
  apply list_congr
  · exact Function.update_of_ne h _ _
  · intro n
    exact Function.update_of_ne (fun heq => h (Prod.mk.inj heq).1) _ _

/-! ## The front -/

theorem mem_list_of_waiting (hq : q.WellFormed) {n : UInt64} (h : q.waiting (queue, n) = some m) :
    m ∈ q.list queue := by
  rw [mem_list hq, (hq.positioned _ _ m h).2]
  exact h

theorem isFront_head? (hq : q.WellFormed) (queue : QueueName) :
    q.IsFront queue (q.list queue).head? := by
  cases hlist : q.list queue with
  | nil =>
      intro n
      rw [Option.eq_none_iff_forall_ne_some]
      intro m hm
      have hmem := mem_list_of_waiting hq hm
      rw [hlist] at hmem
      cases hmem
  | cons first rest =>
      have hsorted : (q.list queue).Pairwise _ := list_sorted hq
      refine ⟨?_, ?_⟩
      · rw [← mem_list hq, hlist]
        exact List.mem_cons_self
      · intro n hn
        rw [Option.eq_none_iff_forall_ne_some]
        intro m hm
        have hmem := mem_list_of_waiting hq hm
        rw [hlist] at hsorted hmem
        rw [UInt64.lt_iff_toNat_lt, ← (hq.positioned _ _ m hm).2] at hn
        rcases List.mem_cons.mp hmem with rfl | hrest
        · exact lt_irrefl _ hn
        · have hlt := (List.pairwise_cons.mp hsorted).1 m hrest
          omega

theorem IsFront.eq_head? (hq : q.WellFormed) {front : Option StoredFifoMessage}
    (h : q.IsFront queue front) : front = (q.list queue).head? :=
  h.unique (isFront_head? hq queue)

theorem readableFront_iff (hq : q.WellFormed) : q.ReadableFront queue ↔
    ∀ front, (q.list queue).head? = some front → front.Readable := by
  constructor
  · intro h front hhead
    exact h front (hhead ▸ isFront_head? hq queue)
  · intro h front hfront
    exact h front (hfront.eq_head? hq).symm

theorem IsFront.list_eq_cons (hq : q.WellFormed) (h : q.IsFront queue (some m)) :
    q.list queue = m :: (q.list queue).tail := by
  have hhead := h.eq_head? hq
  cases hlist : q.list queue with
  | nil =>
      rw [hlist] at hhead
      cases hhead
  | cons first rest =>
      rw [hlist, List.head?_cons] at hhead
      rw [Option.some.inj hhead, List.tail_cons]

def act (q : Queues) (queue : QueueName) (m : StoredFifoMessage) (action : FifoFrontAction) :
    Queues :=
  { q with waiting := Function.update q.waiting (queue, m.sequence) (action.leaves m) }

theorem list_act_self (hq : q.WellFormed) (h : q.IsFront queue (some m))
    (action : FifoFrontAction) :
    (q.act queue m action).list queue = (action.leaves m).toList ++ (q.list queue).tail := by
  have hstep : FrontStep queue m.id action true q (q.act queue m action) :=
    ⟨some m, h, Or.inl ⟨m, rfl, rfl, rfl, rfl⟩⟩
  have hsorted : (q.list queue).Pairwise _ := list_sorted hq
  rw [h.list_eq_cons hq, List.pairwise_cons] at hsorted
  obtain ⟨habove, hrest⟩ := hsorted
  -- what the action leaves has the sequence of the front
  have hleaves : ∀ a ∈ (action.leaves m).toList, a.sequence = m.sequence := by
    intro a ha
    exact (leaves_place (Option.mem_toList.mp ha)).2.1
  apply list_eq (hstep.wellFormed hq)
  · rw [List.pairwise_append]
    refine ⟨?_, hrest, ?_⟩
    · cases action with
      | ack => exact List.Pairwise.nil
      | reject => exact List.pairwise_singleton _ _
    · intro a ha b hb
      rw [hleaves a ha]
      exact habove b hb
  · intro a
    change _ ↔ Function.update q.waiting (queue, m.sequence) (action.leaves m)
      (queue, a.sequence) = some a
    rw [List.mem_append, Option.mem_toList, Function.update_apply]
    split_ifs with hplace
    · have hsequence : a.sequence = m.sequence := (Prod.mk.inj hplace).2
      constructor
      · rintro (ha | ha)
        · exact ha
        · have hlt := habove a ha
          rw [hsequence] at hlt
          exact absurd hlt (lt_irrefl _)
      · exact Or.inl
    · rw [← mem_list hq, h.list_eq_cons hq, List.mem_cons, List.tail_cons]
      constructor
      · rintro (ha | ha)
        · have hsequence := hleaves a (Option.mem_toList.mpr ha)
          exact absurd (congrArg (Prod.mk queue) hsequence) hplace
        · exact Or.inr ha
      · rintro (rfl | ha)
        · exact absurd rfl hplace
        · exact Or.inr ha

theorem list_act_of_ne {queue' : QueueName} (m : StoredFifoMessage) (action : FifoFrontAction)
    (h : queue' ≠ queue) : (q.act queue m action).list queue' = q.list queue' := by
  apply list_congr
  · rfl
  · intro n
    exact Function.update_of_ne (fun heq => h (Prod.mk.inj heq).1) _ _

end Queues

/-! ## One call -/

abbrev FifoLists := QueueName → List StoredFifoMessage

def StoredFifoMessage.retried (m : StoredFifoMessage) : StoredFifoMessage :=
  { m with attempts := m.attempts.saturatingAdd 1 }

def FifoLists.Step (env : CallEnv) :
    (op : StoreOp) → op.Result → FifoLists → FifoLists → Prop
  | .enqueueFifo m, (r : StoredFifoMessage), l, l' =>
      r = ⟨m.id, m.queue, m.topic, m.source, m.target, m.payload, m.headers, env.now,
          r.sequence, 0⟩ ∧
        l' = Function.update l m.queue (l m.queue ++ [r])
  | .peekFifo queue, r, l, l' => r = (l queue).head? ∧ l' = l
  | .ackFifo queue messageId, (r : Bool), l, l' =>
      (r = true ↔ (l queue).head?.map (·.id) = some messageId) ∧
        l' = if r then Function.update l queue (l queue).tail else l
  | .rejectFifo queue messageId, (r : Bool), l, l' =>
      (r = true ↔ (l queue).head?.map (·.id) = some messageId) ∧
        l' = if r then Function.update l queue ((l queue).modifyHead (·.retried)) else l
  | _, _, l, l' => l' = l

/-- Which calls succeed.  SQLite refuses an id that waits already, in whatever queue,
and a clock past `i64::MAX`; and it reads the names of a front message back through
their constructors. -/
def FifoLists.Takes (kind : StorageKind) (env : CallEnv) (l : FifoLists) : StoreOp → Prop
  | .enqueueFifo m => kind = .sqlite →
      (∀ queue, ∀ waiting ∈ l queue, waiting.id ≠ m.id) ∧ env.now.toNat ≤ i64Max
  | .peekFifo queue => kind = .sqlite → ∀ front, (l queue).head? = some front → front.Readable
  | .ackFifo queue _ => kind = .sqlite → ∀ front, (l queue).head? = some front → front.Readable
  | .rejectFifo queue _ => kind = .sqlite → ∀ front, (l queue).head? = some front → front.Readable
  | _ => True

namespace Queues

variable {q q' : Queues}

theorem FrontStep.lists (hq : q.WellFormed) {queue : QueueName} {messageId : MessageId}
    {action : FifoFrontAction} {r : Bool} (h : FrontStep queue messageId action r q q') :
    (r = true ↔ (q.list queue).head?.map (·.id) = some messageId) ∧
      q'.list = if r then Function.update q.list queue
        (((q.list queue).head?.bind action.leaves).toList ++ (q.list queue).tail) else q.list := by
  obtain ⟨front, hfront, hcase⟩ := h
  rw [← hfront.eq_head? hq]
  rcases hcase with ⟨m, rfl, hid, rfl, hact⟩ | ⟨hother, rfl, rfl⟩
  · have hq' : q' = q.act queue m action := hact
    refine ⟨⟨fun _ => congrArg some hid, fun _ => rfl⟩, ?_⟩
    rw [if_pos rfl, hq']
    funext queue'
    by_cases hqueue : queue' = queue
    · subst hqueue
      rw [Function.update_self, list_act_self hq hfront, Option.bind_some]
    · rw [Function.update_of_ne hqueue, list_act_of_ne m action hqueue]
  · refine ⟨?_, by simp⟩
    constructor
    · intro h
      cases h
    · intro h
      obtain ⟨m, hm, hid⟩ := Option.map_eq_some_iff.mp h
      exact absurd hid (hother m hm)

theorem lists_of_step {env : CallEnv} {op : StoreOp} {r : op.Result} (hq : q.WellFormed)
    (hlimit : ∀ queue, q.last queue ≠ UInt64.maxValue) (h : Step env op r q q') :
    FifoLists.Step env op r q.list q'.list := by
  cases op with
  | enqueueFifo m =>
      obtain ⟨hr, hq'⟩ := h
      subst hr
      subst hq'
      refine ⟨rfl, ?_⟩
      funext queue
      by_cases hqueue : queue = m.queue
      · subst hqueue
        rw [Function.update_self, list_enqueue_self hq m env.now (hlimit _)]
      · rw [Function.update_of_ne hqueue, list_enqueue_of_ne m env.now hqueue]
  | peekFifo queue => exact ⟨h.1.eq_head? hq, congrArg list h.2⟩
  | ackFifo queue messageId =>
      obtain ⟨hr, hlists⟩ := FrontStep.lists hq h
      refine ⟨hr, hlists.trans ?_⟩
      cases hlist : (q.list queue).head? <;> rfl
  | rejectFifo queue messageId =>
      obtain ⟨hr, hlists⟩ := FrontStep.lists hq h
      refine ⟨hr, hlists.trans ?_⟩
      cases hlist : q.list queue <;> rfl
  | recordPeerSyncState state =>
      have hq' : q' = q.record state := h
      rw [hq']
      rfl
  | listPeerSyncStates => exact congrArg list h.2.2
  | _ => exact congrArg list h

end Queues

/-! ## Either backend -/

variable [Formats]

namespace StorageKind

def queues : (kind : StorageKind) → kind.Store → Queues
  | redb, s => Redb.queues s
  | sqlite, s => Sqlite.queues s

def QueuesCoded : (kind : StorageKind) → kind.Store → Prop
  | redb, s => Redb.QueuesCoded s
  | sqlite, s => Sqlite.QueuesCoded s

/-- Which calls about queues or peers succeed.  Redb takes every one. -/
def AcceptsFifo : (kind : StorageKind) → kind.Store → CallEnv → StoreOp → Prop
  | redb, _, _, _ => True
  | sqlite, s, env, op => Sqlite.AcceptsQueues (Sqlite.queues s) env op

structure FifoInv (kind : StorageKind) (s : kind.Store) : Prop where
  inv : kind.Inv s
  coded : kind.QueuesCoded s
  wellFormed : (kind.queues s).WellFormed

theorem queues_empty (kind : StorageKind) :
    kind.queues MsgbusStore.empty = Queues.empty := by
  cases kind with
  | redb => exact Redb.queues_openEmpty
  | sqlite => exact Sqlite.queues_openEmpty

theorem fifoInv_empty (kind : StorageKind) : kind.FifoInv MsgbusStore.empty := by
  refine ⟨Backend.inv_empty, ?_, ?_⟩
  · cases kind with
    | redb => exact Redb.queuesCoded_openEmpty
    | sqlite => exact Sqlite.queuesCoded_openEmpty
  · rw [kind.queues_empty]
    exact Queues.wellFormed_empty

/-- A successful call takes an abstract step, or records a sync state and leaves
the queues alone. -/
theorem exec_fifo (kind : StorageKind) {s s' : kind.Store} {env : CallEnv} {op : StoreOp}
    {r : op.Result} (hs : kind.FifoInv s) (h : op.exec s env = .ok (r, s')) :
    kind.QueuesCoded s' ∧
      (Queues.Step env op r (kind.queues s) (kind.queues s') ∨
        (∃ state, op = .recordPeerSyncState state) ∧
          Queues.SameFifo (kind.queues s) (kind.queues s')) := by
  cases kind with
  | redb =>
      obtain ⟨hcoded, hstep⟩ := Redb.exec_refines_queues hs.inv hs.coded h
      refine ⟨hcoded, ?_⟩
      by_cases hrecord : ∃ state, op = .recordPeerSyncState state
      · obtain ⟨state, rfl⟩ := hrecord
        exact Or.inr ⟨⟨state, rfl⟩, Redb.recordPeerSyncState_sameFifo h⟩
      · exact Or.inl (hstep fun state hop => absurd ⟨state, hop⟩ hrecord)
  | sqlite =>
      obtain ⟨hcoded, hstep⟩ := Sqlite.exec_refines_queues hs.inv hs.coded h
      refine ⟨hcoded, ?_⟩
      by_cases hrecord : ∃ state, op = .recordPeerSyncState state
      · obtain ⟨state, rfl⟩ := hrecord
        exact Or.inr ⟨⟨state, rfl⟩, Sqlite.recordPeerSyncState_sameFifo h⟩
      · exact Or.inl (hstep fun state hop => absurd ⟨state, hop⟩ hrecord)

theorem exec_fifo_ok_iff (kind : StorageKind) {s : kind.Store} {env : CallEnv} {op : StoreOp}
    (hs : kind.FifoInv s) (hop : op.onLogs = false) :
    (∃ r s', op.exec s env = .ok (r, s')) ↔ kind.AcceptsFifo s env op := by
  cases kind with
  | redb =>
      obtain ⟨r, s', hexec, -⟩ := Redb.exec_queues hs.coded env hop
      exact iff_of_true ⟨r, s', hexec⟩ trivial
  | sqlite =>
      have hout := Sqlite.exec_queues hs.coded env hop
      cases hexec : op.exec (s : Sqlite) env with
      | ok result =>
          rw [hexec] at hout
          exact iff_of_true ⟨result.1, result.2, rfl⟩ hout.1
      | error e =>
          rw [hexec] at hout
          refine iff_of_false ?_ hout
          rintro ⟨r, s', hok⟩
          cases hok

theorem record_ok (kind : StorageKind) {s : kind.Store} (hs : kind.FifoInv s) (env : CallEnv)
    (state : PeerSyncState) :
    ∃ s', (StoreOp.recordPeerSyncState state).exec s env = .ok ((), s') := by
  cases kind with
  | redb =>
      obtain ⟨s', hrun, -⟩ := Redb.recordPeerSyncState_spec hs.coded state
      exact ⟨s', hrun⟩
  | sqlite =>
      obtain ⟨s', hrun, -⟩ := Sqlite.recordPeerSyncState_spec hs.coded state
      exact ⟨s', hrun⟩

theorem fifoInv_after (kind : StorageKind) {s : kind.Store} (hs : kind.FifoInv s) (env : CallEnv)
    (op : StoreOp) : kind.FifoInv (op.after s env) := by
  have hinv : kind.Inv (op.after s env) := Backend.inv_after hs.inv env op
  unfold StoreOp.after at hinv ⊢
  cases hexec : op.exec s env with
  | error e => exact hs
  | ok result =>
      obtain ⟨r, s'⟩ := result
      rw [hexec] at hinv
      obtain ⟨hcoded, hstep | ⟨-, hsame⟩⟩ := kind.exec_fifo hs hexec
      · exact ⟨hinv, hcoded, Queues.step_wellFormed hs.wellFormed hstep⟩
      · refine ⟨hinv, hcoded, ?_, ?_, ?_⟩
        · intro queue n m hm
          exact hs.wellFormed.positioned queue n m (hsame.waiting ▸ hm)
        · intro queue n m hm
          rw [hsame.last]
          exact hs.wellFormed.bounded queue n m (hsame.waiting ▸ hm)
        · intro queue n m hm
          exact hs.wellFormed.positive queue n m (hsame.waiting ▸ hm)

theorem fifoInv_of_reachable (kind : StorageKind) {s : kind.Store} (hs : Reachable s) :
    kind.FifoInv s := by
  induction hs with
  | empty => exact kind.fifoInv_empty
  | call env op _ ih => exact kind.fifoInv_after ih env op

theorem lists_of_exec (kind : StorageKind) {s s' : kind.Store} {env : CallEnv} {op : StoreOp}
    {r : op.Result} (hs : kind.FifoInv s)
    (hlimit : ∀ queue, ((kind.queues s).last queue).toNat < kind.counterLimit)
    (h : op.exec s env = .ok (r, s')) :
    FifoLists.Step env op r (kind.queues s).list (kind.queues s').list := by
  have hlimit' : ∀ queue, (kind.queues s).last queue ≠ UInt64.maxValue := by
    intro queue hmax
    have hlt := hlimit queue
    have hle := kind.counterLimit_le
    rw [hmax] at hlt
    omega
  obtain ⟨-, hstep | ⟨⟨state, rfl⟩, hsame⟩⟩ := kind.exec_fifo hs h
  · exact Queues.lists_of_step hs.wellFormed hlimit' hstep
  · change (kind.queues s').list = (kind.queues s).list
    funext queue
    exact Queues.list_congr (congrFun hsame.last queue) fun n => congrFun hsame.waiting (queue, n)

omit [Formats] in
theorem acceptsEnqueue_iff {q : Queues} (hq : q.WellFormed) {m : NewFifoMessage} {now : UInt64}
    (hlimit : (q.last m.queue).toNat < i64Max) :
    Sqlite.AcceptsEnqueue q m now ↔
      (∀ queue, ∀ waiting ∈ q.list queue, waiting.id ≠ m.id) ∧ now.toNat ≤ i64Max := by
  have hsequence : (q.enqueued m now).sequence.toNat = (q.last m.queue).toNat + 1 := by
    change ((q.last m.queue).saturatingAdd 1).toNat = _
    rw [UInt64.toNat_saturatingAdd_one]
    unfold i64Max at hlimit
    omega
  constructor
  · intro haccepts
    exact ⟨fun queue waiting hwaiting => haccepts.id _ waiting ((Queues.mem_list hq).mp hwaiting),
      haccepts.createdAtMs⟩
  · rintro ⟨hids, hnow⟩
    refine ⟨?_, ?_, ?_, hnow⟩
    · unfold Sqlite.Fits
      omega
    · rw [Option.eq_none_iff_forall_ne_some]
      intro old hold
      have hbound := hq.bounded _ _ old hold
      omega
    · rintro ⟨queue, n⟩ waiting hwaiting
      exact hids queue waiting (Queues.mem_list_of_waiting hq hwaiting)

theorem acceptsFifo_iff (kind : StorageKind) {s : kind.Store} {env : CallEnv} {op : StoreOp}
    (hs : kind.FifoInv s)
    (hlimit : ∀ queue, ((kind.queues s).last queue).toNat < kind.counterLimit) :
    kind.AcceptsFifo s env op ↔ FifoLists.Takes kind env (kind.queues s).list op := by
  cases kind with
  | redb =>
      refine iff_of_true trivial ?_
      cases op <;> first | trivial | (intro h; cases h)
  | sqlite =>
      have hfront := fun queue =>
        @Queues.readableFront_iff (Sqlite.queues s) queue hs.wellFormed
      cases op with
      | enqueueFifo m =>
          exact (acceptsEnqueue_iff hs.wellFormed (hlimit m.queue)).trans
            ⟨fun h _ => h, fun h => h rfl⟩
      | peekFifo queue => exact (hfront queue).trans ⟨fun h _ => h, fun h => h rfl⟩
      | ackFifo queue messageId => exact (hfront queue).trans ⟨fun h _ => h, fun h => h rfl⟩
      | rejectFifo queue messageId => exact (hfront queue).trans ⟨fun h _ => h, fun h => h rfl⟩
      | _ => exact Iff.rfl

end StorageKind

/-! ## Whole runs -/

def fifoLists (kind : StorageKind) (calls : List (CallEnv × StoreOp)) : FifoLists :=
  (kind.queues (runCalls calls)).list

def StoredFifoMessage.untried (m : StoredFifoMessage) : StoredFifoMessage :=
  { m with attempts := 0 }

def enqueuedOn (queue : QueueName) : CallEvent → Option StoredFifoMessage
  | ⟨.enqueueFifo m, .ok (r : StoredFifoMessage)⟩ => if m.queue = queue then some r else none
  | _ => none

def ackedOn (queue : QueueName) : CallEvent → Option MessageId
  | ⟨.ackFifo queue' messageId, .ok (r : Bool)⟩ =>
      if queue' = queue ∧ r = true then some messageId else none
  | _ => none

/-- What was enqueued is what was acknowledged followed by what waits. -/
def Accounted (queue : QueueName) (events : List CallEvent) (l : List StoredFifoMessage) : Prop :=
  ∃ acked : List StoredFifoMessage,
    acked.map (·.id) = events.filterMap (ackedOn queue) ∧
      events.filterMap (enqueuedOn queue) = acked ++ l.map (·.untried)

section Account

omit [Formats]

variable {queue : QueueName} {events : List CallEvent} {event : CallEvent}

/-- A call that is neither an enqueue nor an acknowledgement on the queue, and
leaves the list as it was up to attempts, keeps the account. -/
theorem Accounted.other {l l' : List StoredFifoMessage} (h : Accounted queue events l)
    (henqueued : enqueuedOn queue event = none) (hacked : ackedOn queue event = none)
    (hlist : l'.map (·.untried) = l.map (·.untried)) :
    Accounted queue (events ++ [event]) l' := by
  obtain ⟨acked, hids, hmessages⟩ := h
  refine ⟨acked, ?_, ?_⟩
  · rw [List.filterMap_append, List.filterMap_cons_none hacked, hids]
    exact (List.append_nil _).symm
  · rw [List.filterMap_append, List.filterMap_cons_none henqueued, hmessages, hlist]
    exact List.append_nil _

theorem Accounted.enqueue {l : List StoredFifoMessage} {r : StoredFifoMessage}
    (h : Accounted queue events l) (henqueued : enqueuedOn queue event = some r)
    (hacked : ackedOn queue event = none) (hr : r.untried = r) :
    Accounted queue (events ++ [event]) (l ++ [r]) := by
  obtain ⟨acked, hids, hmessages⟩ := h
  refine ⟨acked, ?_, ?_⟩
  · rw [List.filterMap_append, List.filterMap_cons_none hacked, hids]
    exact (List.append_nil _).symm
  · rw [List.filterMap_append, List.filterMap_cons_some henqueued, hmessages, List.map_append,
      List.append_assoc, List.map_singleton, hr]
    rfl

/-- The acknowledged message goes from the front to the end of what was
acknowledged. -/
theorem Accounted.ack {front : StoredFifoMessage} {rest : List StoredFifoMessage}
    (h : Accounted queue events (front :: rest)) (henqueued : enqueuedOn queue event = none)
    (hacked : ackedOn queue event = some front.id) : Accounted queue (events ++ [event]) rest := by
  obtain ⟨acked, hids, hmessages⟩ := h
  refine ⟨acked ++ [front.untried], ?_, ?_⟩
  · rw [List.filterMap_append, List.filterMap_cons_some hacked, ← hids, List.map_append]
    rfl
  · rw [List.filterMap_append, List.filterMap_cons_none henqueued, hmessages, List.map_cons,
      List.filterMap_nil, List.append_nil, List.append_assoc]
    rfl

theorem Accounted.step {l l' : FifoLists} {env : CallEnv} {op : StoreOp} {r : op.Result}
    (h : Accounted queue events (l queue)) (hstep : FifoLists.Step env op r l l') :
    Accounted queue (events ++ [⟨op, .ok r⟩]) (l' queue) := by
  cases op with
  | enqueueFifo m =>
      obtain ⟨hr, hl'⟩ := hstep
      subst hl'
      by_cases hqueue : m.queue = queue
      · subst hqueue
        rw [Function.update_self]
        refine h.enqueue (if_pos rfl) rfl ?_
        rw [hr]
        rfl
      · refine h.other (if_neg hqueue) rfl ?_
        rw [Function.update_of_ne (Ne.symm hqueue)]
  | ackFifo queue' messageId =>
      obtain ⟨hr, hl'⟩ := hstep
      subst hl'
      cases r with
      | false => exact h.other rfl (if_neg fun hboth => Bool.noConfusion hboth.2) rfl
      | true =>
          by_cases hqueue : queue' = queue
          · subst hqueue
            obtain ⟨front, hfront, hid⟩ := Option.map_eq_some_iff.mp (hr.mp rfl)
            obtain ⟨rest, hlist⟩ := List.head?_eq_some_iff.mp hfront
            rw [if_pos rfl, Function.update_self, hlist]
            rw [hlist] at h
            refine h.ack rfl ?_
            rw [hid]
            exact if_pos ⟨rfl, rfl⟩
          · refine h.other rfl (if_neg fun hboth => hqueue hboth.1) ?_
            rw [if_pos rfl, Function.update_of_ne (Ne.symm hqueue)]
  | rejectFifo queue' messageId =>
      obtain ⟨-, hl'⟩ := hstep
      subst hl'
      refine h.other rfl rfl ?_
      cases r with
      | false => rfl
      | true =>
          by_cases hqueue : queue' = queue
          · subst hqueue
            rw [if_pos rfl, Function.update_self]
            cases l queue' <;> rfl
          · rw [if_pos rfl, Function.update_of_ne (Ne.symm hqueue)]
  | peekFifo queue' => exact h.other rfl rfl (congrArg _ (congrFun hstep.2 queue))
  | _ => exact h.other rfl rfl (congrArg _ (congrFun hstep queue))

end Account

/-- Before every call of the run the sequence counters are below the limit of
the backend. -/
def SequencesBelow (kind : StorageKind) (calls : List (CallEnv × StoreOp)) : Prop :=
  ∀ before call after, calls = before ++ call :: after →
    ∀ queue, ((kind.queues (runCalls before)).last queue).toNat < kind.counterLimit

theorem fifoLists_concat_ok (kind : StorageKind) {calls : List (CallEnv × StoreOp)} {env : CallEnv}
    {op : StoreOp} {r : op.Result}
    (hlimit : ∀ queue, ((kind.queues (runCalls calls)).last queue).toNat < kind.counterLimit)
    (h : op.outcome (runCalls calls : kind.Store) env = .ok r) :
    FifoLists.Step env op r (fifoLists kind calls) (fifoLists kind (calls ++ [(env, op)])) := by
  obtain ⟨s', hexec⟩ := StoreOp.outcome_eq_ok.mp h
  rw [fifoLists, fifoLists, runCalls_concat, StoreOp.after_of_ok hexec]
  exact kind.lists_of_exec (kind.fifoInv_of_reachable (reachable_runCalls calls)) hlimit hexec

theorem fifoLists_concat_error (kind : StorageKind) {calls : List (CallEnv × StoreOp)}
    {env : CallEnv} {op : StoreOp} {e : MsgbusError}
    (h : op.outcome (runCalls calls : kind.Store) env = .error e) :
    fifoLists kind (calls ++ [(env, op)]) = fifoLists kind calls := by
  rw [fifoLists, fifoLists, runCalls_concat, StoreOp.after_of_error (StoreOp.outcome_eq_error.mp h)]

theorem accounted_runCalls (kind : StorageKind) {calls : List (CallEnv × StoreOp)}
    (hlimit : SequencesBelow kind calls) (queue : QueueName) :
    Accounted queue (trace kind.Store calls) (fifoLists kind calls queue) := by
  induction calls using List.reverseRecOn with
  | nil =>
      have hempty : fifoLists kind [] queue = [] := by
        rw [fifoLists, show runCalls [] = (MsgbusStore.empty : kind.Store) from rfl,
          kind.queues_empty]
        rfl
      rw [hempty]
      exact ⟨[], rfl, rfl⟩
  | append_singleton calls call ih =>
      obtain ⟨env, op⟩ := call
      have hbefore : SequencesBelow kind calls := by
        intro before call' after heq
        apply hlimit before call' (after ++ [(env, op)])
        rw [heq, List.append_assoc, List.cons_append]
      have haccount := ih hbefore
      rw [trace_concat]
      cases hout : op.outcome (runCalls calls : kind.Store) env with
      | ok r => exact haccount.step (fifoLists_concat_ok kind (hlimit calls _ [] rfl) hout)
      | error e =>
          rw [fifoLists_concat_error kind hout]
          refine haccount.other ?_ ?_ rfl
          · cases op <;> rfl
          · cases op <;> rfl

theorem outcome_ok_iff_takes (kind : StorageKind) {calls : List (CallEnv × StoreOp)} {env : CallEnv}
    {op : StoreOp} (hop : op.onLogs = false)
    (hlimit : ∀ queue, ((kind.queues (runCalls calls)).last queue).toNat < kind.counterLimit) :
    (∃ r, op.outcome (runCalls calls : kind.Store) env = .ok r) ↔
      FifoLists.Takes kind env (fifoLists kind calls) op := by
  have hinv := kind.fifoInv_of_reachable (reachable_runCalls calls)
  refine Iff.trans ?_ ((kind.exec_fifo_ok_iff hinv hop).trans (kind.acceptsFifo_iff hinv hlimit))
  exact exists_congr fun r => StoreOp.outcome_eq_ok

/-- Every queue of either backend is a list: in every run each call does to the
lists what `FifoLists.Step` says or fails and changes nothing, it fails exactly when
the backend does not take it, and what was acknowledged on a queue followed by what
waits there is what was enqueued. -/
theorem fifo_refines_lists (kind : StorageKind) {calls : List (CallEnv × StoreOp)}
    (hlimit : SequencesBelow kind calls) :
    (∀ before env op after, calls = before ++ (env, op) :: after →
      (∀ r, op.outcome (runCalls before : kind.Store) env = .ok r →
        FifoLists.Step env op r (fifoLists kind before) (fifoLists kind (before ++ [(env, op)]))) ∧
      (∀ e, op.outcome (runCalls before : kind.Store) env = .error e →
        fifoLists kind (before ++ [(env, op)]) = fifoLists kind before) ∧
      (op.onLogs = false → ((∃ r, op.outcome (runCalls before : kind.Store) env = .ok r) ↔
        FifoLists.Takes kind env (fifoLists kind before) op))) ∧
    ∀ queue, Accounted queue (trace kind.Store calls) (fifoLists kind calls queue) := by
  refine ⟨?_, accounted_runCalls kind hlimit⟩
  intro before env op after heq
  refine ⟨?_, ?_, ?_⟩
  · intro r hout
    exact fifoLists_concat_ok kind (hlimit before _ after heq) hout
  · intro e hout
    exact fifoLists_concat_error kind hout
  · intro hop
    exact outcome_ok_iff_takes kind hop (hlimit before _ after heq)

theorem last_runCalls_le (kind : StorageKind) (calls : List (CallEnv × StoreOp))
    (queue : QueueName) : ((kind.queues (runCalls calls)).last queue).toNat ≤ calls.length := by
  induction calls using List.reverseRecOn with
  | nil =>
      rw [show runCalls [] = (MsgbusStore.empty : kind.Store) from rfl, kind.queues_empty]
      rfl
  | append_singleton calls call ih =>
      obtain ⟨env, op⟩ := call
      have hinv := kind.fifoInv_of_reachable (reachable_runCalls calls)
      rw [runCalls_concat, List.length_append, List.length_singleton]
      cases hexec : op.exec (runCalls calls : kind.Store) env with
      | error e =>
          rw [StoreOp.after_of_error hexec]
          omega
      | ok result =>
          obtain ⟨r, s'⟩ := result
          rw [StoreOp.after_of_ok hexec]
          obtain ⟨-, hstep | ⟨-, hsame⟩⟩ := kind.exec_fifo hinv hexec
          · have hle := Queues.step_last_le hstep queue
            omega
          · rw [hsame.last]
            omega

theorem sequencesBelow_of_length (kind : StorageKind) {calls : List (CallEnv × StoreOp)}
    (h : calls.length ≤ kind.counterLimit) : SequencesBelow kind calls := by
  intro before call after heq queue
  have hle := last_runCalls_le kind before queue
  rw [heq, List.length_append, List.length_cons] at h
  omega

theorem fifoLists_nil (kind : StorageKind) : fifoLists kind [] = fun _ => [] := by
  rw [fifoLists, show runCalls [] = (MsgbusStore.empty : kind.Store) from rfl, kind.queues_empty]
  rfl

theorem enqueue_next (kind : StorageKind) {calls : List (CallEnv × StoreOp)}
    (hlength : calls.length < kind.counterLimit) (m : NewFifoMessage)
    (hfresh : ∀ queue, ∀ waiting ∈ fifoLists kind calls queue, waiting.id ≠ m.id) :
    ∃ r : StoredFifoMessage, r.id = m.id ∧ r.queue = m.queue ∧ r.topic = m.topic ∧
      fifoLists kind (calls ++ [(firstEnv, .enqueueFifo m)]) =
        Function.update (fifoLists kind calls) m.queue (fifoLists kind calls m.queue ++ [r]) := by
  have hbelow (queue : QueueName) :
      ((kind.queues (runCalls calls)).last queue).toNat < kind.counterLimit :=
    Nat.lt_of_le_of_lt (last_runCalls_le kind calls queue) hlength
  have htakes : FifoLists.Takes kind firstEnv (fifoLists kind calls) (.enqueueFifo m) :=
    fun _ => ⟨hfresh, by decide⟩
  obtain ⟨r, hout⟩ := (outcome_ok_iff_takes kind rfl hbelow).mpr htakes
  obtain ⟨hr, hlists⟩ := fifoLists_concat_ok kind hbelow hout
  refine ⟨r, ?_, ?_, ?_, hlists⟩ <;> rw [hr]

theorem enqueue_first (m : NewFifoMessage) :
    ∃ r : StoredFifoMessage, r.id = m.id ∧ r.queue = m.queue ∧ r.topic = m.topic ∧
      fifoLists .sqlite [(firstEnv, .enqueueFifo m)] =
        Function.update (fun _ => []) m.queue [r] := by
  obtain ⟨r, hid, hqueue, htopic, hlists⟩ :=
    enqueue_next .sqlite (show [].length < _ by decide) m fun queue waiting hmem => by
      rw [fifoLists_nil] at hmem
      cases hmem
  rw [fifoLists_nil] at hlists
  exact ⟨r, hid, hqueue, htopic, hlists⟩

def parcel (id queue topic : String) : NewFifoMessage :=
  ⟨⟨id⟩, ⟨queue⟩, ⟨topic⟩, ⟨"a", "b", "c"⟩, ⟨"a", "b", "c"⟩, .empty, .empty⟩

/-- Two messages for one queue and one for another. -/
def twoQueues : List (CallEnv × StoreOp) :=
  [(firstEnv, .enqueueFifo (parcel "m" "q" "t")), (firstEnv, .enqueueFifo (parcel "n" "q" "t")),
    (firstEnv, .enqueueFifo (parcel "o" "r" "t"))]

theorem lists_twoQueues :
    ∃ m n o : StoredFifoMessage, m.id = ⟨"m"⟩ ∧ n.id = ⟨"n"⟩ ∧ o.id = ⟨"o"⟩ ∧ m.Readable ∧
      fifoLists .sqlite twoQueues =
        Function.update (Function.update (fun _ => []) ⟨"q"⟩ [m, n]) ⟨"r"⟩ [o] := by
  obtain ⟨m, hm, hqueue, htopic, hone⟩ := enqueue_first (parcel "m" "q" "t")
  have hone : fifoLists .sqlite (twoQueues.take 1) = Function.update (fun _ => []) ⟨"q"⟩ [m] := hone
  obtain ⟨n, hn, -, -, htwo⟩ := enqueue_next .sqlite
    (show (twoQueues.take 1).length < _ by decide) (parcel "n" "q" "t") (by
      intro queue waiting hmem
      rw [hone, Function.update_apply] at hmem
      split_ifs at hmem
      · rw [List.mem_singleton.mp hmem, hm]
        decide
      · cases hmem)
  have htwo : fifoLists .sqlite (twoQueues.take 2) =
      Function.update (fun _ => []) ⟨"q"⟩ [m, n] := by
    refine htwo.trans ?_
    rw [hone]
    exact Function.update_idem _ _ _
  obtain ⟨o, ho, -, -, hthree⟩ := enqueue_next .sqlite
    (show (twoQueues.take 2).length < _ by decide) (parcel "o" "r" "t") (by
      intro queue waiting hmem
      rw [htwo, Function.update_apply] at hmem
      split_ifs at hmem
      · rcases List.mem_pair.mp hmem with rfl | rfl
        · rw [hm]
          decide
        · rw [hn]
          decide
      · cases hmem)
  rw [htwo] at hthree
  have hreadable : m.Readable := by
    unfold StoredFifoMessage.Readable
    rw [hm, hqueue, htopic]
    decide
  exact ⟨m, n, o, hm, hn, ho, hreadable, hthree⟩

def ackFirst : StoreOp := .ackFifo ⟨"q"⟩ ⟨"m"⟩

omit [Formats] in
/-- The first message of a queue is acknowledged: the second one is its front then,
the other queue is as it was, and the account of every queue is right. -/
theorem fifo_refines_lists_two :
    letI := Serde.formats
    SequencesBelow .sqlite (twoQueues ++ [(firstEnv, ackFirst)]) ∧
      ackFirst.outcome (runCalls twoQueues : Sqlite) firstEnv = .ok true ∧
      (fifoLists .sqlite (twoQueues ++ [(firstEnv, ackFirst)]) ⟨"q"⟩).map (·.id) = [⟨"n"⟩] ∧
      (fifoLists .sqlite (twoQueues ++ [(firstEnv, ackFirst)]) ⟨"r"⟩).map (·.id) = [⟨"o"⟩] ∧
      ∀ queue, Accounted queue (trace Sqlite (twoQueues ++ [(firstEnv, ackFirst)]))
        (fifoLists .sqlite (twoQueues ++ [(firstEnv, ackFirst)]) queue) := by
  let := Serde.formats
  have hlimit := sequencesBelow_of_length .sqlite
    (show (twoQueues ++ [(firstEnv, ackFirst)]).length ≤ _ by decide)
  obtain ⟨hcalls, haccount⟩ := fifo_refines_lists .sqlite hlimit
  obtain ⟨hstep, -, htakes⟩ := hcalls twoQueues firstEnv ackFirst [] rfl
  obtain ⟨m, n, o, hm, hn, ho, hreadable, hlists⟩ := lists_twoQueues
  have hfirst : fifoLists .sqlite twoQueues ⟨"q"⟩ = [m, n] := by
    rw [hlists]
    rfl
  have hother : fifoLists .sqlite twoQueues ⟨"r"⟩ = [o] := by
    rw [hlists]
    rfl
  obtain ⟨acked, hout⟩ := (htakes rfl).mpr fun _ front hfront => by
    rw [hfirst] at hfront
    cases hfront
    exact hreadable
  obtain ⟨hacked, hafter⟩ := hstep acked hout
  rw [hfirst] at hacked hafter
  have htrue : acked = true := hacked.mpr (congrArg some hm)
  rw [htrue] at hout hafter
  refine ⟨hlimit, hout, ?_, ?_, haccount⟩
  · rw [hafter, if_pos rfl, Function.update_self, List.tail_cons, List.map_singleton, hn]
  · rw [hafter, if_pos rfl, Function.update_of_ne (by decide), hother, List.map_singleton, ho]

omit [Formats] in
/-- SQLite refuses an id that waits in another queue, and a front message with a
topic that its constructor does not admit. -/
theorem waiting_id_refused :
    letI := Serde.formats
    (∃ e, (StoreOp.enqueueFifo (parcel "m" "r" "t")).outcome
        (runCalls [(firstEnv, .enqueueFifo (parcel "m" "q" "t"))] : Sqlite) firstEnv = .error e ∧
      fifoLists .sqlite [(firstEnv, .enqueueFifo (parcel "m" "q" "t")),
        (firstEnv, .enqueueFifo (parcel "m" "r" "t"))] ⟨"r"⟩ = []) ∧
    ∃ e, (StoreOp.peekFifo ⟨"q"⟩).outcome
      (runCalls [(firstEnv, .enqueueFifo (parcel "m" "q" " "))] : Sqlite) firstEnv = .error e := by
  let := Serde.formats
  have hbelow : ∀ m queue, ((StorageKind.sqlite.queues
      (runCalls [(firstEnv, StoreOp.enqueueFifo m)])).last queue).toNat <
        StorageKind.sqlite.counterLimit := by
    intro m queue
    refine Nat.lt_of_le_of_lt (last_runCalls_le .sqlite _ queue) ?_
    exact Nat.lt_of_lt_of_le (by decide : 1 < 2) (by decide)
  refine ⟨?_, ?_⟩
  · obtain ⟨r, hid, -, -, hlists⟩ := enqueue_first (parcel "m" "q" "t")
    have htakes : ¬ FifoLists.Takes .sqlite firstEnv
        (fifoLists .sqlite [(firstEnv, .enqueueFifo (parcel "m" "q" "t"))])
        (.enqueueFifo (parcel "m" "r" "t")) := by
      intro htakes
      refine (htakes rfl).1 ⟨"q"⟩ r ?_ hid
      rw [hlists]
      exact List.mem_singleton_self r
    cases hout : (StoreOp.enqueueFifo (parcel "m" "r" "t")).outcome
        (runCalls [(firstEnv, .enqueueFifo (parcel "m" "q" "t"))] : Sqlite) firstEnv with
    | ok r => exact absurd ((outcome_ok_iff_takes .sqlite rfl (hbelow _)).mp ⟨r, hout⟩) htakes
    | error e =>
        refine ⟨e, rfl, ?_⟩
        have hsame := fifoLists_concat_error .sqlite hout
        exact (congrFun (hsame.trans hlists) ⟨"r"⟩).trans rfl
  · obtain ⟨r, -, -, htopic, hlists⟩ := enqueue_first (parcel "m" "q" " ")
    have htakes : ¬ FifoLists.Takes .sqlite firstEnv
        (fifoLists .sqlite [(firstEnv, .enqueueFifo (parcel "m" "q" " "))]) (.peekFifo ⟨"q"⟩) := by
      intro htakes
      have hreadable := htakes rfl r (by rw [hlists]; rfl)
      have hvalid : ValidPart r.topic.value := hreadable.2.2
      rw [htopic] at hvalid
      exact absurd hvalid (by decide)
    cases hout : (StoreOp.peekFifo ⟨"q"⟩).outcome
        (runCalls [(firstEnv, .enqueueFifo (parcel "m" "q" " "))] : Sqlite) firstEnv with
    | ok r => exact absurd ((outcome_ok_iff_takes .sqlite rfl (hbelow _)).mp ⟨r, hout⟩) htakes
    | error e => exact ⟨e, rfl⟩

end Msgbus

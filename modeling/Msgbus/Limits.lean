import Msgbus.Fifo
import Msgbus.Windows

/-!
# Counters at their limit

Both backends number the messages of a log and of a queue with `saturating_add`.
SQLite converts the number to `i64` before it writes and fails at the limit.
Redb uses it as a key: once the last number is taken, the next message replaces
the one that has it.
-/

namespace Msgbus

/-- A message was added past everything in its log, and the others are as they
were but for the flags that `marks` sets. -/
structure Logs.Adds (b b' : Logs) (added : StoredMessage) (marks : LogKey → UInt64 → Bool) :
    Prop where
  above : ∀ n m, b.message added.log n = some m → n < added.headId
  stored : b'.message added.log added.headId = some added
  kept : ∀ k n m, b.message k n = some m →
    b'.message k n = some (m.withDeleted (m.deleted || marks k n))

structure Queues.Adds (q q' : Queues) (added : StoredFifoMessage) : Prop where
  above : ∀ n m, q.waiting (added.queue, n) = some m → n < added.sequence
  stored : q'.waiting (added.queue, added.sequence) = some added
  kept : ∀ a m, q.waiting a = some m → q'.waiting a = some m

/-- The call would number its message `u64::MAX`, and a message has that number
already.  A range with its ends the wrong way round is refused before. -/
def StoreOp.Overflows (b : Logs) (q : Queues) : StoreOp → Prop
  | .appendMessage m => (b.message (LogKey.of m.topic m.origin) UInt64.maxValue).isSome
  | .tombstoneRangeWithMarker _ _ first last markerTopic markerOrigin =>
      first ≤ last ∧ (b.message (LogKey.of markerTopic markerOrigin) UInt64.maxValue).isSome
  | .enqueueFifo m => (q.waiting (m.queue, UInt64.maxValue)).isSome
  | _ => False

namespace Logs

variable {b : Logs}

theorem current_ne_max (hb : b.WellFormed) {k : LogKey}
    (hfree : ¬ (b.message k UInt64.maxValue).isSome) : b.current k ≠ UInt64.maxValue := by
  intro hmax
  refine hfree ((hb.contiguous k _).mpr ?_)
  rw [hmax]
  exact ⟨by decide, Nat.le_refl _⟩

theorem adds_append (hb : b.WellFormed) {msg : NewMessage} (now : UInt64)
    (hfree : ¬ (b.message (LogKey.of msg.topic msg.origin) UInt64.maxValue).isSome) :
    b.Adds (b.append msg now) (b.appended msg now) fun _ _ => false := by
  have hnext := UInt64.toNat_saturatingAdd_one_of_ne (current_ne_max hb hfree)
  have habove : ∀ n m, b.message (LogKey.of msg.topic msg.origin) n = some m →
      n < (b.appended msg now).headId := by
    intro n m hm
    have hbounds := (hb.contiguous _ n).mp (by rw [hm]; rfl)
    rw [UInt64.lt_iff_toNat_lt, appended_headId, hnext]
    omega
  refine ⟨habove, write_message_self, ?_⟩
  intro k n m hm
  rw [Bool.or_false, StoredMessage.withDeleted_of_eq rfl]
  by_cases hk : k = LogKey.of msg.topic msg.origin
  · subst hk
    have hne : n ≠ (b.appended msg now).headId := fun heq =>
      absurd (UInt64.lt_iff_toNat_lt.mp (habove n m hm)) (by rw [heq]; exact Nat.lt_irrefl _)
    exact (write_message_of_ne hne).trans hm
  · exact (congrFun (write_message_of_ne_log hk) n).trans hm

theorem isSome_mark {k k' : LogKey} {first last n : UInt64} :
    ((b.mark k first last).message k' n).isSome = (b.message k' n).isSome := by
  rw [mark_message, Option.isSome_map]

theorem adds_mark_append (hb : b.WellFormed) {k : LogKey} {first last : UInt64} {msg : NewMessage}
    (now : UInt64)
    (hfree : ¬ (b.message (LogKey.of msg.topic msg.origin) UInt64.maxValue).isSome) :
    b.Adds ((b.mark k first last).append msg now) ((b.mark k first last).appended msg now)
      fun k' n => decide (k' = k ∧ first ≤ n ∧ n ≤ last) := by
  rw [← isSome_mark (k := k)] at hfree
  have hadds := adds_append (wellFormed_mark hb first last) now hfree
  have hmarked : ∀ k' n m, b.message k' n = some m → (b.mark k first last).message k' n =
      some (m.withDeleted (m.deleted || decide (k' = k ∧ first ≤ n ∧ n ≤ last))) := by
    intro k' n m hm
    rw [mark_message, hm, Option.map_some]
  refine ⟨fun n m hm => hadds.above n _ (hmarked _ n m hm), hadds.stored, ?_⟩
  intro k' n m hm
  rw [hadds.kept k' n _ (hmarked k' n m hm), Bool.or_false, StoredMessage.withDeleted_of_eq rfl]

end Logs

theorem Queues.adds_enqueue {q : Queues} (hq : q.WellFormed) {m : NewFifoMessage} (now : UInt64)
    (hfree : ¬ (q.waiting (m.queue, UInt64.maxValue)).isSome) :
    q.Adds (q.enqueue m now) (q.enqueued m now) := by
  -- below the limit the new number is past the counter; at the limit nothing waits there
  have habove : ∀ n m', q.waiting (m.queue, n) = some m' → n < (q.enqueued m now).sequence := by
    intro n m' hm'
    have hbound := hq.bounded m.queue n m' hm'
    have hne : n ≠ UInt64.maxValue := fun heq => hfree (by rw [← heq, hm']; rfl)
    have hne' : n.toNat ≠ 2 ^ 64 - 1 := fun heq => hne (UInt64.toNat_inj.mp heq)
    have hlt := n.toNat_lt
    have hsequence : (q.enqueued m now).sequence.toNat =
        min ((q.last m.queue).toNat + 1) (2 ^ 64 - 1) := UInt64.toNat_saturatingAdd_one _
    rw [UInt64.lt_iff_toNat_lt, hsequence]
    omega
  refine ⟨habove, Function.update_self _ _ _, ?_⟩
  intro a m' hm'
  refine (Function.update_of_ne ?_ _ _).trans hm'
  rintro rfl
  exact absurd (UInt64.lt_iff_toNat_lt.mp (habove _ m' hm')) (Nat.lt_irrefl _)

variable [Formats]

namespace StorageKind

def Stored (kind : StorageKind) (s s' : kind.Store) : (op : StoreOp) → op.Result → Prop
  | .appendMessage m, (r : StoredMessage) =>
      r.log = LogKey.of m.topic m.origin ∧
        (kind.logs s).Adds (kind.logs s') r (fun _ _ => false) ∧ kind.queues s' = kind.queues s
  | .tombstoneRangeWithMarker topic origin first last markerTopic markerOrigin,
      (r : UInt64 × StoredMessage) =>
      r.2.log = LogKey.of markerTopic markerOrigin ∧
        (kind.logs s).Adds (kind.logs s') r.2
          (fun k n => decide (k = LogKey.of topic origin ∧ first ≤ n ∧ n ≤ last)) ∧
        kind.queues s' = kind.queues s
  | .enqueueFifo m, (r : StoredFifoMessage) =>
      r.queue = m.queue ∧ (kind.queues s).Adds (kind.queues s') r ∧ kind.logs s' = kind.logs s
  | _, _ => True

/-- A counted call fails and leaves the store alone, or adds its message past
everything in its log or queue and keeps what was there. -/
def Lossless (kind : StorageKind) (s : kind.Store) (env : CallEnv) (op : StoreOp) : Prop :=
  (∃ e, op.exec s env = .error e ∧ op.after s env = s) ∨
    ∃ r s', op.exec s env = .ok (r, s') ∧ kind.Stored s s' op r

theorem not_overflows_sqlite {s : Sqlite} (hs : sqlite.FifoInv s) (op : StoreOp) :
    ¬ op.Overflows s.logs s.queues := by
  have hb : s.logs.WellFormed := Backend.wellFormed hs.inv
  have hmessage : ∀ k, ¬ (s.logs.message k UInt64.maxValue).isSome := by
    intro k hsome
    have hbounds := (hb.contiguous k _).mp hsome
    have hle : (s.logs.current k).toNat ≤ i64Max := sqlite.current_le_counterLimit hs.inv k
    rw [UInt64.toNat_maxValue] at hbounds
    unfold i64Max at hle
    omega
  have hwaiting : ∀ queue, ¬ (s.queues.waiting (queue, UInt64.maxValue)).isSome := by
    intro queue hsome
    obtain ⟨m, hm⟩ := Option.isSome_iff_exists.mp hsome
    obtain ⟨hrow, haddr⟩ := (RowCode.view_eq_some hs.coded.fifo).mp hm
    have hfits : Sqlite.Fits m.sequence := hs.coded.fits m hrow
    rw [show m.sequence = UInt64.maxValue from congrArg Prod.snd haddr] at hfits
    exact absurd hfits (by decide)
  cases op with
  | appendMessage m => exact hmessage _
  | tombstoneRangeWithMarker topic origin first last markerTopic markerOrigin =>
      exact fun h => hmessage _ h.2
  | enqueueFifo m => exact hwaiting _
  | _ => exact fun h => h

theorem lossless_of_not_overflows (kind : StorageKind) {s : kind.Store} (hs : kind.FifoInv s)
    (env : CallEnv) {op : StoreOp} (hop : ¬ op.Overflows (kind.logs s) (kind.queues s)) :
    kind.Lossless s env op := by
  cases hexec : op.exec s env with
  | error e => exact Or.inl ⟨e, hexec, StoreOp.after_of_error hexec⟩
  | ok result =>
      obtain ⟨r, s'⟩ := result
      refine Or.inr ⟨r, s', hexec, ?_⟩
      have hb : (kind.logs s).WellFormed := Backend.wellFormed hs.inv
      have hlogs : Logs.Step env op r (kind.logs s) (kind.logs s') := (Backend.refines hs.inv hexec).2
      obtain ⟨-, hqueues⟩ := kind.exec_fifo hs hexec
      cases op with
      | appendMessage m =>
          obtain ⟨rfl, hstep⟩ := hlogs
          refine ⟨rfl, ?_, ?_⟩
          · rw [hstep]
            exact Logs.adds_append hb env.now hop
          · rcases hqueues with hsame | ⟨⟨state, hstate⟩, -⟩
            · exact hsame
            · cases hstate
      | tombstoneRangeWithMarker topic origin first last markerTopic markerOrigin =>
          obtain ⟨hle, -, hmarker, hstep⟩ := hlogs
          refine ⟨?_, ?_, ?_⟩
          · rw [hmarker]
            rfl
          · rw [hmarker, hstep]
            exact Logs.adds_mark_append hb env.later fun hsome => hop ⟨hle, hsome⟩
          · rcases hqueues with hsame | ⟨⟨state, hstate⟩, -⟩
            · exact hsame
            · cases hstate
      | enqueueFifo m =>
          rcases hqueues with ⟨rfl, hstep⟩ | ⟨⟨state, hstate⟩, -⟩
          · refine ⟨rfl, ?_, hlogs⟩
            rw [hstep]
            exact Queues.adds_enqueue hs.wellFormed env.now hop
          · cases hstate
      | _ => trivial

theorem exec_append_redb {s : Redb} (hs : s.Inv) (env : CallEnv) (msg : NewMessage) :
    ∃ r s', StoreOp.exec s env (.appendMessage msg) = .ok (r, s') :=
  Backend.exec_eq_ok (σ := Redb) hs rfl trivial rfl

theorem exec_of_overflows {s : Redb} (hs : redb.FifoInv s) (env : CallEnv) {op : StoreOp}
    (hop : op.Overflows s.logs s.queues) : ∃ r s', op.exec s env = .ok (r, s') := by
  cases op with
  | appendMessage m => exact exec_append_redb hs.inv env m
  | tombstoneRangeWithMarker topic origin first last markerTopic markerOrigin =>
      exact Backend.exec_eq_ok (σ := Redb) hs.inv rfl trivial (if_neg (UInt64.not_lt.mpr hop.1))
  | enqueueFifo m => exact (redb.exec_fifo_ok_iff hs rfl).mpr trivial
  | _ => exact absurd hop id

/-- A call that overflows stores its message under a number that is taken. -/
theorem not_lossless_of_overflows {s : Redb} (hs : redb.FifoInv s) (env : CallEnv) {op : StoreOp}
    (hop : op.Overflows s.logs s.queues) : ¬ redb.Lossless s env op := by
  have hlast : ∀ n : UInt64, ¬ UInt64.maxValue < n := by
    intro n hlt
    have hnat := UInt64.lt_iff_toNat_lt.mp hlt
    have hbound := n.toNat_lt
    rw [UInt64.toNat_maxValue] at hnat
    omega
  obtain ⟨r, s', hexec⟩ := exec_of_overflows hs env hop
  rintro (⟨e, herror, -⟩ | ⟨r', t, hok, hstored⟩)
  · rw [hexec] at herror
    cases herror
  · cases op with
    | appendMessage m =>
        obtain ⟨old, hold⟩ := Option.isSome_iff_exists.mp hop
        obtain ⟨hlog, hadds, -⟩ := hstored
        exact hlast _ (hadds.above _ old (by rw [hlog]; exact hold))
    | tombstoneRangeWithMarker topic origin first last markerTopic markerOrigin =>
        obtain ⟨old, hold⟩ := Option.isSome_iff_exists.mp hop.2
        obtain ⟨hlog, hadds, -⟩ := hstored
        exact hlast _ (hadds.above _ old (by rw [hlog]; exact hold))
    | enqueueFifo m =>
        obtain ⟨old, hold⟩ := Option.isSome_iff_exists.mp hop
        obtain ⟨hqueue, hadds, -⟩ := hstored
        exact hlast _ (hadds.above _ old (by rw [hqueue]; exact hold))
    | _ => exact hop

end StorageKind

/-- A counted call fails or adds its message without touching another exactly
when it does not overflow, and on SQLite none does. -/
theorem counters_lossless_iff (kind : StorageKind) {s : kind.Store} (hs : kind.FifoInv s)
    (env : CallEnv) (op : StoreOp) :
    (kind.Lossless s env op ↔ ¬ op.Overflows (kind.logs s) (kind.queues s)) ∧
      (kind = .sqlite → ¬ op.Overflows (kind.logs s) (kind.queues s)) := by
  refine ⟨⟨?_, kind.lossless_of_not_overflows hs env⟩, ?_⟩
  · intro hlossless hop
    cases kind with
    | redb => exact StorageKind.not_lossless_of_overflows hs env hop hlossless
    | sqlite => exact StorageKind.not_overflows_sqlite hs op hop
  · rintro rfl
    exact StorageKind.not_overflows_sqlite hs op

/-! ## A full log -/

theorem exists_filled_store (n : Nat) (hn : n < 2 ^ 64) :
    ∃ s : Redb, Reachable s ∧ (s.logs.current (LogKey.of ⟨"t"⟩ ⟨"a", "b", "c"⟩)).toNat = n ∧
      ∀ j m, s.logs.message (LogKey.of ⟨"t"⟩ ⟨"a", "b", "c"⟩) j = some m → m.payload = .empty := by
  induction n with
  | zero =>
      refine ⟨MsgbusStore.empty, .empty, ?_, ?_⟩
      · rw [show (MsgbusStore.empty : Redb).logs = Logs.empty from Redb.logs_openEmpty]
        rfl
      · intro j m hm
        rw [show (MsgbusStore.empty : Redb).logs = Logs.empty from Redb.logs_openEmpty] at hm
        cases hm
  | succ n ih =>
      obtain ⟨s, hs, hcurrent, hpayload⟩ := ih (by omega)
      obtain ⟨r, s', hexec⟩ := StorageKind.exec_append_redb (Backend.inv_of_reachable hs) firstEnv
        firstMessage
      have hlogs : s'.logs = s.logs.append firstMessage 0 :=
        (Backend.refines (Backend.inv_of_reachable hs) hexec).2.2
      refine ⟨s', StoreOp.after_of_ok hexec ▸ hs.call firstEnv _, ?_, ?_⟩
      · rw [hlogs]
        refine (congrArg UInt64.toNat Logs.write_current_self).trans ?_
        rw [Logs.appended_headId, UInt64.max_saturatingAdd_one, UInt64.toNat_saturatingAdd_one]
        change min ((s.logs.current (LogKey.of ⟨"t"⟩ ⟨"a", "b", "c"⟩)).toNat + 1) _ = _
        omega
      · intro j m hm
        rw [hlogs] at hm
        by_cases hj : j = (s.logs.appended firstMessage 0).headId
        · rw [hj] at hm
          cases (Logs.write_message_self (k := LogKey.of ⟨"t"⟩ ⟨"a", "b", "c"⟩)).symm.trans hm
          rfl
        · exact hpayload j m ((Logs.write_message_of_ne hj).symm.trans hm)

omit [Formats] in
/-- The append that takes the last number keeps the message before it. -/
theorem counters_lossless_last :
    letI := Serde.formats
    ∃ (s s' : Redb) (old new : StoredMessage), StorageKind.redb.FifoInv s ∧
      s.logs.current (LogKey.of ⟨"t"⟩ ⟨"a", "b", "c"⟩) = UInt64.maxValue - 1 ∧
      s.logs.message (LogKey.of ⟨"t"⟩ ⟨"a", "b", "c"⟩) (UInt64.maxValue - 1) = some old ∧
      StorageKind.redb.Lossless s firstEnv (.appendMessage firstMessage) ∧
      StoreOp.exec s firstEnv (.appendMessage firstMessage) = .ok (new, s') ∧
      new.headId = UInt64.maxValue ∧
      s'.logs.message (LogKey.of ⟨"t"⟩ ⟨"a", "b", "c"⟩) UInt64.maxValue = some new ∧
      s'.logs.message (LogKey.of ⟨"t"⟩ ⟨"a", "b", "c"⟩) (UInt64.maxValue - 1) = some old := by
  let := Serde.formats
  obtain ⟨s, hs, hcurrent, -⟩ := exists_filled_store (2 ^ 64 - 2) (by decide)
  have hinv := StorageKind.redb.fifoInv_of_reachable hs
  have hwf : s.logs.WellFormed := Backend.wellFormed hinv.inv
  have hlast : s.logs.current (LogKey.of ⟨"t"⟩ ⟨"a", "b", "c"⟩) = UInt64.maxValue - 1 :=
    UInt64.toNat_inj.mp hcurrent
  have hsome : (s.logs.message (LogKey.of ⟨"t"⟩ ⟨"a", "b", "c"⟩) (UInt64.maxValue - 1)).isSome := by
    rw [hwf.contiguous, hlast]
    exact ⟨by decide, Nat.le_refl _⟩
  have hfree : ¬ (s.logs.message (LogKey.of ⟨"t"⟩ ⟨"a", "b", "c"⟩) UInt64.maxValue).isSome := by
    rw [hwf.contiguous, hlast]
    decide
  have hlossless := (counters_lossless_iff .redb hinv firstEnv (.appendMessage firstMessage)).1.mpr
    hfree
  obtain ⟨old, hold⟩ := Option.isSome_iff_exists.mp hsome
  obtain ⟨r, t, hok⟩ := StorageKind.exec_append_redb hinv.inv firstEnv firstMessage
  rcases hlossless with ⟨e, herror, -⟩ | ⟨new, s', hexec, hlog, hadds, hqueues⟩
  · cases hok.symm.trans herror
  have hnew : new.headId = UInt64.maxValue := by
    rw [(Backend.refines hinv.inv hexec).2.1, Logs.appended_headId]
    exact (congrArg (UInt64.saturatingAdd · 1) hlast).trans rfl
  refine ⟨s, s', old, new, hinv, hlast, hold, Or.inr ⟨new, s', hexec, hlog, hadds, hqueues⟩, hexec,
    hnew, ?_, ?_⟩
  · have hstored := hadds.stored
    rw [hlog, hnew] at hstored
    exact hstored
  · have hkept := hadds.kept _ _ old hold
    rw [Bool.or_false, StoredMessage.withDeleted_of_eq rfl] at hkept
    exact hkept

omit [Formats] in
/-- One more append replaces the message with the last number. -/
theorem full_log_is_overwritten :
    letI := Serde.formats
    ∃ (s s' : Redb) (old new : StoredMessage), Reachable s ∧
      s.logs.message (LogKey.of ⟨"t"⟩ ⟨"a", "b", "c"⟩) UInt64.maxValue = some old ∧
      StoreOp.exec s firstEnv (.appendMessage { firstMessage with payload := ⟨#[1]⟩ }) =
        .ok (new, s') ∧
      s'.logs.message (LogKey.of ⟨"t"⟩ ⟨"a", "b", "c"⟩) UInt64.maxValue = some new ∧
      old.payload = ⟨#[]⟩ ∧ new.payload = ⟨#[1]⟩ := by
  let := Serde.formats
  obtain ⟨s, hs, hcurrent, hpayload⟩ := exists_filled_store (2 ^ 64 - 1) (by decide)
  have hinv : s.Inv := Backend.inv_of_reachable hs
  have hmax : s.logs.current (LogKey.of ⟨"t"⟩ ⟨"a", "b", "c"⟩) = UInt64.maxValue :=
    UInt64.toNat_inj.mp hcurrent
  have hsome : (s.logs.message (LogKey.of ⟨"t"⟩ ⟨"a", "b", "c"⟩) UInt64.maxValue).isSome := by
    rw [hinv.wellFormed.contiguous, hmax]
    exact ⟨by decide, Nat.le_refl _⟩
  obtain ⟨old, hold⟩ := Option.isSome_iff_exists.mp hsome
  obtain ⟨new, s', hexec⟩ := StorageKind.exec_append_redb hinv firstEnv
    { firstMessage with payload := ⟨#[1]⟩ }
  obtain ⟨hnew, hlogs⟩ := (Backend.refines hinv hexec).2
  have hheadId : new.headId = UInt64.maxValue := by
    rw [hnew, Logs.appended_headId]
    exact (congrArg (UInt64.saturatingAdd · 1) hmax).trans rfl
  refine ⟨s, s', old, new, hs, hold, hexec, ?_, hpayload _ old hold, ?_⟩
  · rw [show s'.logs = _ from hlogs, ← hheadId, hnew]
    exact Logs.write_message_self
  · rw [hnew]
    rfl

end Msgbus

import Msgbus.Network
import Msgbus.Serde

/-!
# What a store guarantees

The representation of logs in the tables of either backend, the permanence of
what is stored, and which calls can affect which logs.
-/

namespace Msgbus

variable [Formats]

/-! ## Representation -/

/-- The rows of one log in redb: with head `h` there are messages at exactly `1`
to `h`, without a head there are none, and each row holds a message of its own
position. -/
structure Redb.Contiguous (s : Redb) (k : LogKey) : Prop where
  head : ∀ h, s.heads.get (logHeadKey k) = some h →
    1 ≤ h ∧ ∀ n, (s.messages.get (logMessageKey k n)).isSome ↔ 1 ≤ n ∧ n ≤ h
  headless : s.heads.get (logHeadKey k) = none → ∀ n, s.messages.get (logMessageKey k n) = none
  row : ∀ n value, s.messages.get (logMessageKey k n) = some value →
    ∃ m, Formats.storedMessage.decode value = .ok m ∧ m.headId = n ∧ m.topic = k.topic ∧
      m.origin.key = k.origin

/-- The rows of one log in SQLite.  A row keeps its topic and position in its
primary key, so every message read from it has them. -/
structure Sqlite.Contiguous (s : Sqlite) (k : LogKey) : Prop where
  head : ∀ h, s.heads.get ⟨k.topic.value, k.origin⟩ = some h →
    1 ≤ h ∧ ∀ n, (s.messages.get ⟨k.topic.value, k.origin, n⟩).isSome ↔ 1 ≤ n ∧ n ≤ h
  headless : s.heads.get ⟨k.topic.value, k.origin⟩ = none →
    ∀ n, s.messages.get ⟨k.topic.value, k.origin, n⟩ = none
  row : ∀ n row, s.messages.get ⟨k.topic.value, k.origin, n⟩ = some row →
    ∃ origin, Formats.nodeId.decodeJson row.originJson = .ok origin ∧ origin.key = k.origin ∧
      ∀ m, rowToMessage ⟨k.topic.value, k.origin, n⟩ row = .ok m →
        (m.headId.toNat : Int) = n ∧ m.topic = k.topic ∧ m.origin = origin

theorem Redb.message_of_row {s : Redb} (hs : s.Inv) {k : LogKey} {n : UInt64} {value : ByteArray}
    (h : s.messages.get (logMessageKey k n) = some value) :
    ∃ m, Formats.storedMessage.decode value = .ok m ∧ s.logs.message k n = some m := by
  obtain ⟨m, hentry⟩ := hs.coded.messages _ (OrderedTable.get_eq_some_iff.mp h)
  have hdecode : Formats.storedMessage.decode value = .ok m := by
    rw [show value = (Redb.messageEntry m).2 from congrArg Prod.snd hentry]
    exact JsonFormat.decode_encode _ m
  refine ⟨m, hdecode, ?_⟩
  change (s.messages.get (logMessageKey k n)).bind _ = _
  rw [h, Option.bind_some, hdecode]
  rfl

theorem Redb.isSome_row {s : Redb} (hs : s.Inv) (k : LogKey) (n : UInt64) :
    (s.messages.get (logMessageKey k n)).isSome ↔ 1 ≤ n ∧ n ≤ s.logs.current k := by
  have hone : (1 : UInt64).toNat = 1 := rfl
  rw [UInt64.le_iff_toNat_le, UInt64.le_iff_toNat_le, hone]
  have hcontiguous := hs.wellFormed.contiguous k n
  constructor
  · intro hrow
    obtain ⟨value, hvalue⟩ := Option.isSome_iff_exists.mp hrow
    obtain ⟨m, -, hm⟩ := Redb.message_of_row hs hvalue
    have hbounds := hcontiguous.mp (by rw [hm]; rfl)
    omega
  · intro hbounds
    obtain ⟨m, hm⟩ := Option.isSome_iff_exists.mp (hcontiguous.mpr (by omega))
    obtain ⟨hmem, rfl, rfl⟩ := (Redb.logs_message_eq_some hs.coded).mp hm
    exact Option.isSome_iff_exists.mpr ⟨_, OrderedTable.get_eq_some_iff.mpr hmem⟩

theorem Redb.contiguous {s : Redb} (hs : s.Inv) (k : LogKey) : s.Contiguous k where
  head := by
    intro h hhead
    have hcurrent : s.logs.current k = h := by
      rw [Logs.current, show s.logs.head k = some h from hhead]
      rfl
    refine ⟨?_, fun n => hcurrent ▸ Redb.isSome_row hs k n⟩
    rw [UInt64.le_iff_toNat_le]
    exact hs.wellFormed.head_pos k h hhead
  headless := by
    intro hhead n
    have hcurrent : s.logs.current k = 0 := by
      rw [Logs.current, show s.logs.head k = none from hhead]
      rfl
    rw [← Option.not_isSome_iff_eq_none, Redb.isSome_row hs k n, hcurrent,
      UInt64.le_iff_toNat_le, UInt64.le_iff_toNat_le]
    have hone : (1 : UInt64).toNat = 1 := rfl
    have hzero : (0 : UInt64).toNat = 0 := rfl
    omega
  row := by
    intro n value hvalue
    obtain ⟨m, hdecode, hm⟩ := Redb.message_of_row hs hvalue
    obtain ⟨hpos, rfl⟩ := hs.wellFormed.positioned k n m hm
    exact ⟨m, hdecode, hpos, rfl, rfl⟩

theorem Sqlite.message_of_row {s : Sqlite} (hs : s.Inv) {k : LogKey} {n : Int}
    {row : Sqlite.MessageRow} (h : s.messages.get ⟨k.topic.value, k.origin, n⟩ = some row) :
    ∃ m, Sqlite.messageEntry m = (⟨k.topic.value, k.origin, n⟩, row) ∧ n = m.headId.toNat ∧
      s.logs.message k m.headId = some m := by
  have hmem := OrderedTable.get_eq_some_iff.mp h
  obtain ⟨m, hentry, -⟩ := hs.coded.messages _ hmem
  have hpk : (⟨k.topic.value, k.origin, n⟩ : Sqlite.MessagePk) = (Sqlite.messageEntry m).1 :=
    congrArg Prod.fst hentry
  obtain ⟨htopic, horigin, hn⟩ := Sqlite.MessagePk.mk.inj hpk
  have hlog : m.log = k := Sqlite.log_eq_iff.mpr ⟨htopic.symm, horigin.symm⟩
  exact ⟨m, hentry.symm, hn,
    (Sqlite.logs_message_eq_some hs.coded).mpr ⟨hentry ▸ hmem, hlog, rfl⟩⟩

theorem Sqlite.isSome_row {s : Sqlite} (hs : s.Inv) (k : LogKey) (n : Int) :
    (s.messages.get ⟨k.topic.value, k.origin, n⟩).isSome ↔
      1 ≤ n ∧ n ≤ (s.logs.current k).toNat := by
  constructor
  · intro hrow
    obtain ⟨row, hget⟩ := Option.isSome_iff_exists.mp hrow
    obtain ⟨m, -, rfl, hm⟩ := Sqlite.message_of_row hs hget
    have hbounds := (hs.wellFormed.contiguous k m.headId).mp (by rw [hm]; rfl)
    omega
  · rintro ⟨hone, hle⟩
    have hlt := (s.logs.current k).toNat_lt
    have hn : ((UInt64.ofNat n.toNat).toNat : Int) = n := by
      rw [UInt64.toNat_ofNat', Nat.mod_eq_of_lt (by omega)]
      omega
    obtain ⟨m, hm⟩ := Option.isSome_iff_exists.mp
      ((hs.wellFormed.contiguous k (UInt64.ofNat n.toNat)).mpr (by omega))
    obtain ⟨hmem, hlog, hpos⟩ := (Sqlite.logs_message_eq_some hs.coded).mp hm
    have hpk : (Sqlite.messageEntry m).1 = ⟨k.topic.value, k.origin, n⟩ := by
      rw [Sqlite.messageEntry_fst, hlog, hpos, Sqlite.messagePk, hn]
    have hget : s.messages.get (Sqlite.messageEntry m).1 = some (Sqlite.messageEntry m).2 :=
      OrderedTable.get_eq_some_iff.mpr hmem
    rw [hpk] at hget
    exact Option.isSome_iff_exists.mpr ⟨_, hget⟩

theorem Sqlite.contiguous {s : Sqlite} (hs : s.Inv) (k : LogKey) : s.Contiguous k where
  head := by
    intro h hget
    obtain ⟨h', hvalue, -⟩ := hs.coded.heads _ (OrderedTable.get_eq_some_iff.mp hget)
    have hh : h = h'.toNat := hvalue
    subst hh
    have hhead : s.logs.head k = some h' := (Sqlite.logs_head_eq_some hs.coded).mpr hget
    have hcurrent : s.logs.current k = h' := by
      rw [Logs.current, hhead]
      rfl
    have hpos := hs.wellFormed.head_pos k h' hhead
    exact ⟨by omega, fun n => hcurrent ▸ Sqlite.isSome_row hs k n⟩
  headless := by
    intro hget n
    have hcurrent : s.logs.current k = 0 := by
      have hhead : s.logs.head k = none := by
        change (s.heads.get (Sqlite.headPk k)).map _ = none
        rw [show s.heads.get (Sqlite.headPk k) = none from hget]
        rfl
      rw [Logs.current, hhead]
      rfl
    rw [← Option.not_isSome_iff_eq_none, Sqlite.isSome_row hs k n, hcurrent]
    have hzero : (0 : UInt64).toNat = 0 := rfl
    omega
  row := by
    intro n row hget
    obtain ⟨m, hentry, rfl, hm⟩ := Sqlite.message_of_row hs hget
    obtain ⟨-, rfl⟩ := hs.wellFormed.positioned k _ m hm
    have hrow : row = (Sqlite.messageEntry m).2 := (congrArg Prod.snd hentry).symm
    refine ⟨m.origin, ?_, rfl, ?_⟩
    · rw [hrow]
      exact JsonFormat.decodeJson_toStr _ m.origin
    · intro m' hread
      rw [hrow] at hread
      obtain ⟨-, rfl⟩ := Sqlite.rowToMessage_eq_ok.mp hread
      exact ⟨rfl, rfl, rfl⟩

/-- After any sequence of calls, the tables of either backend represent every
log. -/
theorem tables_represent_logs (calls : List (CallEnv × StoreOp)) (k : LogKey) :
    (runCalls calls : Redb).Contiguous k ∧ (runCalls calls : Sqlite).Contiguous k :=
  ⟨Redb.contiguous (Backend.inv_of_reachable (σ := Redb) (reachable_runCalls calls)) k,
    Sqlite.contiguous (Backend.inv_of_reachable (σ := Sqlite) (reachable_runCalls calls)) k⟩

/-! ## First calls -/

theorem accepts_append_fresh (kind : StorageKind) (msg : NewMessage) {env : CallEnv}
    (hnow : Sqlite.Fits env.now) :
    @Backend.Accepts _ kind.Store (instBackendStore kind) Logs.empty env (.appendMessage msg) := by
  cases kind with
  | redb => trivial
  | sqlite =>
      refine ⟨?_, hnow, ?_, ?_⟩
      · intro k n m hm
        cases hm
      · change (UInt64.saturatingAdd 0 1).toNat ≤ i64Max
        decide
      · intro k n m hm
        cases hm

theorem step_of_fresh (kind : StorageKind) (op : StoreOp) {env : CallEnv}
    (hop : op.onLogs = true)
    (haccepts : @Backend.Accepts _ kind.Store (instBackendStore kind) Logs.empty env op)
    (hrefuses : Logs.empty.refuses op = none) :
    ∃ r, Logs.Step env op r Logs.empty
      (kind.logs (op.after (MsgbusStore.empty : kind.Store) env)) := by
  have hlogs : kind.logs (MsgbusStore.empty : kind.Store) = Logs.empty := Backend.logs_empty
  have hinv : kind.Inv (MsgbusStore.empty : kind.Store) := Backend.inv_empty
  obtain ⟨r, s', hexec⟩ := Backend.exec_eq_ok hinv hop (hlogs.symm ▸ haccepts)
    (show (kind.logs (MsgbusStore.empty : kind.Store)).refuses op = none by rw [hlogs, hrefuses])
  have hstep := (Backend.refines hinv hexec).2
  refine ⟨r, ?_⟩
  rw [StoreOp.after, hexec, ← hlogs]
  exact hstep

theorem head_append_fresh (kind : StorageKind) {msg : NewMessage} {env : CallEnv}
    (hnow : Sqlite.Fits env.now) :
    (kind.logs (StoreOp.after (MsgbusStore.empty : kind.Store) env (.appendMessage msg))).head
      (LogKey.of msg.topic msg.origin) = some 1 := by
  obtain ⟨r, -, hstep⟩ :=
    step_of_fresh kind (.appendMessage msg) rfl (accepts_append_fresh kind msg hnow) rfl
  rw [hstep, Logs.append_head_self]
  rfl

theorem accepts_marker_fresh (kind : StorageKind) (topic markerTopic : Topic)
    (origin markerOrigin : NodeId) {env : CallEnv} (hnow : Sqlite.Fits env.now)
    (hlater : Sqlite.Fits env.later) :
    @Backend.Accepts _ kind.Store (instBackendStore kind) Logs.empty env
      (.tombstoneRangeWithMarker topic origin 1 1 markerTopic markerOrigin) := by
  cases kind with
  | redb => trivial
  | sqlite =>
      have hlater' : Sqlite.Fits (⟨env.later, 0, env.id⟩ : CallEnv).now := hlater
      obtain ⟨hreadable, happend⟩ := accepts_append_fresh .sqlite
        (Logs.marker topic origin 1 1 markerTopic markerOrigin env) hlater'
      exact ⟨hreadable, by decide, by decide, hnow, happend⟩

theorem head_marker_fresh (kind : StorageKind) {topic markerTopic : Topic}
    {origin markerOrigin : NodeId} {env : CallEnv} (hnow : Sqlite.Fits env.now)
    (hlater : Sqlite.Fits env.later) :
    (kind.logs (StoreOp.after (MsgbusStore.empty : kind.Store) env
      (.tombstoneRangeWithMarker topic origin 1 1 markerTopic markerOrigin))).head
      (LogKey.of markerTopic markerOrigin) = some 1 := by
  obtain ⟨r, -, -, -, hstep⟩ := step_of_fresh kind _ rfl
    (accepts_marker_fresh kind topic markerTopic origin markerOrigin hnow hlater) rfl
  rw [hstep]
  exact Logs.append_head_self _ _

theorem head_le_one_of_fresh (kind : StorageKind) (op : StoreOp) (env : CallEnv) {k : LogKey}
    {h : UInt64}
    (hhead : (kind.logs (op.after (MsgbusStore.empty : kind.Store) env)).head k = some h) :
    h.toNat ≤ 1 := by
  have hlogs : kind.logs (MsgbusStore.empty : kind.Store) = Logs.empty := Backend.logs_empty
  have hinv : kind.Inv (MsgbusStore.empty : kind.Store) := Backend.inv_empty
  rcases Backend.after_cases hinv env op with ⟨r, -, -, hstep⟩ | hsame
  · have hle : ((kind.logs (op.after MsgbusStore.empty env)).current k).toNat ≤
        ((kind.logs (MsgbusStore.empty : kind.Store)).current k).toNat + 1 :=
      Logs.step_current_le (Backend.wellFormed hinv) hstep k
    rw [hlogs, Logs.current, hhead] at hle
    exact hle
  · rw [hsame, hlogs] at hhead
    cases hhead

/-! ## Permanence -/

/-- Everything stored is still there: messages with the same contents, flags
that are only raised, heads that do not fall. -/
structure Logs.Preserved (b b' : Logs) : Prop where
  message : ∀ k n m, b.message k n = some m → ∃ m', b'.message k n = some m' ∧ m'.id = m.id ∧
    m'.origin = m.origin ∧ m'.payload = m.payload ∧ m'.headers = m.headers ∧
    m'.createdAtMs = m.createdAtMs ∧ (m.deleted = true → m'.deleted = true)
  head : ∀ k h, b.head k = some h → ∃ h', b'.head k = some h' ∧ h ≤ h'

omit [Formats] in
theorem Logs.Grows.preserved {b b' : Logs} (hb : b.WellFormed) (h : b.Grows b') :
    b.Preserved b' where
  message := by
    intro k n m hm
    obtain ⟨m', hm', hkeep, hdeleted⟩ := h.message k n m hm
    refine ⟨m', hm', ?_⟩
    rw [hkeep]
    exact ⟨rfl, rfl, rfl, rfl, rfl, hdeleted⟩
  head := by
    intro k n hn
    have hpos := hb.head_pos k n hn
    have hle := h.head k
    rw [Logs.current, Logs.current, hn] at hle
    cases hn' : b'.head k with
    | none =>
        rw [hn'] at hle
        have hzero : (0 : UInt64).toNat = 0 := rfl
        simp only [Option.getD_some, Option.getD_none] at hle
        omega
    | some n' =>
        rw [hn'] at hle
        exact ⟨n', rfl, UInt64.le_iff_toNat_le.mpr hle⟩

omit [Formats] in
theorem StorageKind.counterLimit_le (kind : StorageKind) :
    kind.counterLimit ≤ UInt64.maxValue.toNat := by
  cases kind with
  | redb => exact le_rfl
  | sqlite => decide

/-- While all heads are below the counter limit, no call, whatever its arguments
and outcome, loses or changes what is stored. -/
theorem stored_messages_permanent (kind : StorageKind) {s : kind.Store} (hs : Reachable s)
    (hlimit : ∀ k h, (kind.logs s).head k = some h → h.toNat < kind.counterLimit)
    (env : CallEnv) (op : StoreOp) :
    (kind.logs s).Preserved (kind.logs (op.after s env)) := by
  have hinv : kind.Inv s := Backend.inv_of_reachable hs
  refine Logs.Grows.preserved (Backend.wellFormed hinv) (Backend.grows_after hinv ?_)
  intro k _ hmax
  have hle := kind.counterLimit_le
  have hmax' : (kind.logs s).current k = UInt64.maxValue := hmax
  cases hhead : (kind.logs s).head k with
  | none =>
      rw [Logs.current, hhead] at hmax'
      cases hmax'
  | some h =>
      rw [Logs.current, hhead] at hmax'
      have hlt := hlimit k h hhead
      rw [show h = UInt64.maxValue from hmax'] at hlt
      omega

def firstMessage : NewMessage := ⟨⟨"m"⟩, ⟨"t"⟩, ⟨"a", "b", "c"⟩, .empty, .empty⟩

def firstEnv : CallEnv := ⟨0, 0, ⟨"x"⟩⟩

def firstStore (kind : StorageKind) : kind.Store :=
  StoreOp.after MsgbusStore.empty firstEnv (.appendMessage firstMessage)

omit [Formats] in
/-- A store with one message, and a range that flags it. -/
theorem stored_messages_permanent_one :
    letI := Serde.formats
    (StorageKind.sqlite.logs (firstStore .sqlite)).head (LogKey.of ⟨"t"⟩ ⟨"a", "b", "c"⟩) = some 1 ∧
      (StorageKind.sqlite.logs (firstStore .sqlite)).Preserved (StorageKind.sqlite.logs
        (StoreOp.after (firstStore .sqlite) firstEnv
          (.tombstoneRange ⟨"t"⟩ ⟨"a", "b", "c"⟩ 1 1))) := by
  let _ : Formats := Serde.formats
  refine ⟨head_append_fresh .sqlite (by decide), ?_⟩
  refine stored_messages_permanent .sqlite (.call firstEnv _ .empty) ?_ firstEnv _
  intro k h hhead
  have hle := head_le_one_of_fresh .sqlite (.appendMessage firstMessage) firstEnv hhead
  exact Nat.lt_of_le_of_lt hle (by decide)

/-! ## Deletion -/

def recordedRange : CallEvent → Option (LogKey × HeadId × HeadId)
  | ⟨op, .ok _⟩ => op.marks
  | ⟨_, .error _⟩ => none

theorem tombstone_of_recorded (kind : StorageKind) {calls : List (CallEnv × StoreOp)} {k : LogKey}
    {first last : HeadId}
    (h : (k, first, last) ∈ (trace kind.Store calls).filterMap recordedRange) :
    (kind.logs (runCalls calls)).tombstone k first last := by
  induction calls using List.reverseRecOn with
  | nil => cases h
  | append_singleton calls call ih =>
      obtain ⟨env, op⟩ := call
      have hinv : kind.Inv (runCalls calls : kind.Store) :=
        Backend.inv_of_reachable (reachable_runCalls calls)
      rw [trace_concat, List.filterMap_append, List.mem_append] at h
      rw [runCalls_concat]
      cases hexec : op.exec (runCalls calls : kind.Store) env with
      | error e =>
          rw [StoreOp.outcome_eq_error.mpr hexec] at h
          rw [StoreOp.after_of_error hexec]
          exact ih (h.resolve_right List.not_mem_nil)
      | ok result =>
          obtain ⟨r, s'⟩ := result
          have hstep : Logs.Step env op r (kind.logs (runCalls calls)) (kind.logs s') :=
            (Backend.refines hinv hexec).2
          rw [StoreOp.outcome_eq_ok.mpr ⟨s', hexec⟩] at h
          rw [StoreOp.after_of_ok hexec, Logs.step_tombstone_iff hstep]
          refine h.imp ih ?_
          intro hmem
          obtain ⟨event, hevent, hmarks⟩ := List.mem_filterMap.mp hmem
          rw [List.mem_singleton.mp hevent] at hmarks
          exact hmarks

/-- After any sequence of calls, every stored message inside a range that some
call recorded for its log is flagged, whichever of the two came first. -/
theorem recorded_ranges_flag_messages (kind : StorageKind) {calls : List (CallEnv × StoreOp)}
    {k : LogKey} {first last n : HeadId} {m : StoredMessage}
    (hrange : (k, first, last) ∈ (trace kind.Store calls).filterMap recordedRange)
    (hm : (kind.logs (runCalls calls)).message k n = some m) (hfirst : first ≤ n) (hlast : n ≤ last) :
    m.deleted = true := by
  have hinv : kind.Inv (runCalls calls : kind.Store) :=
    Backend.inv_of_reachable (reachable_runCalls calls)
  exact (Backend.wellFormed hinv).covered k n m hm
    ⟨first, last, tombstone_of_recorded kind hrange, hfirst, hlast⟩

def markOwn : StoreOp :=
  .tombstoneRangeWithMarker ⟨"t"⟩ ⟨"a", "b", "c"⟩ 1 1 ⟨"t"⟩ ⟨"a", "b", "c"⟩

theorem recorded_markOwn (kind : StorageKind) :
    (LogKey.of ⟨"t"⟩ ⟨"a", "b", "c"⟩, 1, 1) ∈
      (trace kind.Store [(firstEnv, markOwn)]).filterMap recordedRange := by
  have hlogs : kind.logs (MsgbusStore.empty : kind.Store) = Logs.empty := Backend.logs_empty
  have haccepts : @Backend.Accepts _ kind.Store (instBackendStore kind)
      (kind.logs MsgbusStore.empty) firstEnv markOwn := by
    rw [hlogs]
    exact accepts_marker_fresh kind _ _ _ _ (by decide) (by decide)
  have hrefuses : (kind.logs (MsgbusStore.empty : kind.Store)).refuses markOwn = none := by
    rw [hlogs]
    rfl
  obtain ⟨r, s', hexec⟩ := Backend.exec_eq_ok (σ := kind.Store) Backend.inv_empty rfl haccepts
    hrefuses
  have htrace : trace kind.Store [(firstEnv, markOwn)] = [⟨markOwn, .ok r⟩] := by
    rw [trace, traceFrom, StoreOp.outcome_eq_ok.mpr ⟨s', hexec⟩]
    rfl
  rw [htrace]
  exact List.mem_singleton_self _

theorem message_markOwn (kind : StorageKind) :
    ∃ m, (kind.logs (runCalls [(firstEnv, markOwn)])).message
      (LogKey.of ⟨"t"⟩ ⟨"a", "b", "c"⟩) 1 = some m := by
  have hinv : kind.Inv (runCalls [(firstEnv, markOwn)] : kind.Store) :=
    Backend.inv_of_reachable (reachable_runCalls _)
  have hhead : (kind.logs (runCalls [(firstEnv, markOwn)])).head
      (LogKey.of ⟨"t"⟩ ⟨"a", "b", "c"⟩) = some 1 :=
    head_marker_fresh kind (by decide) (by decide)
  refine Option.isSome_iff_exists.mp (((Backend.wellFormed hinv).contiguous _ 1).mpr ?_)
  rw [show (Backend.logs (runCalls [(firstEnv, markOwn)] : kind.Store)).current _ = 1 from
    congrArg (Option.getD · 0) hhead]
  decide

omit [Formats] in
/-- A marker inside the range it announces is stored flagged. -/
theorem recorded_ranges_flag_messages_marker :
    letI := Serde.formats
    (LogKey.of ⟨"t"⟩ ⟨"a", "b", "c"⟩, 1, 1) ∈
        (trace Sqlite [(firstEnv, markOwn)]).filterMap recordedRange ∧
      ∃ m, (StorageKind.sqlite.logs (runCalls [(firstEnv, markOwn)])).message
        (LogKey.of ⟨"t"⟩ ⟨"a", "b", "c"⟩) 1 = some m ∧ m.deleted = true := by
  have hrange := @recorded_markOwn Serde.formats .sqlite
  obtain ⟨m, hm⟩ := @message_markOwn Serde.formats .sqlite
  have hdeleted := @recorded_ranges_flag_messages Serde.formats .sqlite _ _ _ _ _ _ hrange hm
    (UInt64.le_refl 1) (UInt64.le_refl 1)
  constructor
  · exact hrange
  · exact ⟨m, hm, hdeleted⟩

end Msgbus

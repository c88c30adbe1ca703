import Msgbus.Guarantees
import Msgbus.Redb.Queues
import Msgbus.Sqlite.Queues

/-!
# The two backends are interchangeable

Redb and SQLite refine the same abstract logs and queues, and the abstract step
determines what a call returns.  A run on both stores therefore keeps them in a
simulation, as long as every call is one that SQLite can take.
-/

namespace Msgbus

/-! ## Steps are determined -/

/-- The same result, up to order for the two calls that return a set. -/
def StoreOp.SameResult : (op : StoreOp) → op.Result → op.Result → Prop
  | .listHeads, (r : List TopicHead), r' => r.Perm r'
  | .listPeerSyncStates, (r : List PeerSyncState), r' => r.Perm r'
  | _, r, r' => r = r'

def StoreOp.SameOutcome (op : StoreOp) :
    Except MsgbusError op.Result → Except MsgbusError op.Result → Prop
  | .ok r, .ok r' => op.SameResult r r'
  | .error e, .error e' => e.kind = e'.kind
  | _, _ => False

variable [Formats]

theorem Logs.refuses_of_step {env : CallEnv} {op : StoreOp} {r : op.Result} {b b' : Logs}
    (h : Step env op r b b') : b.refuses op = none := by
  cases op with
  | putReplicatedMessage m =>
      obtain ⟨hzero, hput⟩ := h
      simp only [refuses]
      rw [if_neg hzero]
      cases r with
      | alreadyPresent =>
          rw [hput.1]
          simp
      | inserted =>
          obtain ⟨-, ⟨hnone, hgap⟩ | ⟨old, hold, -, hupgrade⟩⟩ := hput
          · rw [hnone]
            have hle : ¬ (b.current m.log).saturatingAdd 1 < m.headId := by
              rw [UInt64.lt_iff_toNat_lt]
              omega
            exact if_neg hle
          · rw [hold]
            exact if_pos (Or.inr hupgrade)
  | tombstoneRange topic origin first last => exact if_neg (UInt64.not_lt.mpr h.1)
  | tombstoneRangeWithMarker topic origin first last markerTopic markerOrigin =>
      exact if_neg (UInt64.not_lt.mpr h.1)
  | _ => rfl

theorem Logs.eq_of_step_of_not_onLogs {env : CallEnv} {op : StoreOp} {r : op.Result} {b b' : Logs}
    (hop : op.onLogs = false) (h : Step env op r b b') : b' = b := by
  cases op <;> first | exact h | cases hop

/-- The logs determine what a call about them returns and does. -/
theorem Logs.step_unique {env : CallEnv} {op : StoreOp} {r r' : op.Result} {b b₁ b₂ : Logs}
    (hop : op.onLogs = true) (h : Step env op r b b₁) (h' : Step env op r' b b₂) :
    op.SameResult r r' ∧ b₁ = b₂ := by
  cases op with
  | appendMessage m => exact ⟨h.1.trans h'.1.symm, h.2.trans h'.2.symm⟩
  | fetchMessages query => exact ⟨h.1.trans h'.1.symm, h.2.trans h'.2.symm⟩
  | getHead topic origin => exact ⟨h.1.trans h'.1.symm, h.2.trans h'.2.symm⟩
  | listHeads =>
      obtain ⟨hnodup, hmem, hb⟩ := h
      obtain ⟨hnodup', hmem', hb'⟩ := h'
      refine ⟨(List.perm_ext_iff_of_nodup hnodup hnodup').mpr ?_, hb.trans hb'.symm⟩
      intro head
      exact (hmem head).trans (hmem' head).symm
  | putReplicatedMessage m =>
      obtain ⟨-, hput⟩ := h
      obtain ⟨-, hput'⟩ := h'
      -- a message is there already or has to be written, not both
      have hclash : ∀ c c', PutStep m .alreadyPresent b c → ¬ PutStep m .inserted b c' := by
        rintro c c' ⟨hpresent, -⟩ ⟨-, ⟨hnone, -⟩ | ⟨old, hold, hne, -⟩⟩
        · rw [hpresent] at hnone
          cases hnone
        · rw [hpresent] at hold
          exact hne (Option.some.inj hold).symm
      cases r with
      | alreadyPresent =>
          cases r' with
          | alreadyPresent => exact ⟨rfl, hput.2.trans hput'.2.symm⟩
          | inserted => exact absurd hput' (hclash _ _ hput)
      | inserted =>
          cases r' with
          | alreadyPresent => exact absurd hput (hclash _ _ hput')
          | inserted => exact ⟨rfl, hput.1.trans hput'.1.symm⟩
  | tombstoneRange topic origin first last =>
      exact ⟨UInt64.toNat_inj.mp (h.2.1.trans h'.2.1.symm), h.2.2.trans h'.2.2.symm⟩
  | tombstoneRangeWithMarker topic origin first last markerTopic markerOrigin =>
      obtain ⟨-, hcount, hmarker, hb⟩ := h
      obtain ⟨-, hcount', hmarker', hb'⟩ := h'
      exact ⟨Prod.ext (UInt64.toNat_inj.mp (hcount.trans hcount'.symm))
        (hmarker.trans hmarker'.symm), hb.trans hb'.symm⟩
  | _ => cases hop

omit [Formats] in
theorem Queues.step_unique {env : CallEnv} {op : StoreOp} {r r' : op.Result} {q q₁ q₂ : Queues}
    (hop : op.onLogs = false) (h : Step env op r q q₁) (h' : Step env op r' q q₂) :
    op.SameResult r r' ∧ q₁ = q₂ := by
  cases op with
  | enqueueFifo m => exact ⟨h.1.trans h'.1.symm, h.2.trans h'.2.symm⟩
  | peekFifo queue => exact ⟨h.1.unique h'.1, h.2.trans h'.2.symm⟩
  | ackFifo queue messageId => exact FrontStep.unique h h'
  | rejectFifo queue messageId => exact FrontStep.unique h h'
  | recordPeerSyncState state =>
      exact ⟨rfl, (show q₁ = q.record state from h).trans (show q₂ = q.record state from h').symm⟩
  | listPeerSyncStates =>
      obtain ⟨hnodup, hmem, hq⟩ := h
      obtain ⟨hnodup', hmem', hq'⟩ := h'
      refine ⟨(List.perm_ext_iff_of_nodup hnodup hnodup').mpr ?_, hq.trans hq'.symm⟩
      intro state
      exact (hmem state).trans (hmem' state).symm
  | _ => cases hop

/-! ## Calls that SQLite can take -/

/-- The names a call would store come from their validating constructors. -/
def StoreOp.NamesValid (env : CallEnv) : StoreOp → Prop
  | .appendMessage m => ValidPart m.id.value ∧ ValidPart m.topic.value
  | .putReplicatedMessage m => ValidPart m.id.value ∧ ValidPart m.topic.value
  | .tombstoneRangeWithMarker _ _ _ _ markerTopic _ =>
      ValidPart env.id.value ∧ ValidPart markerTopic.value
  | .enqueueFifo m => ValidPart m.id.value ∧ ValidPart m.queue.value ∧ ValidPart m.topic.value
  | _ => True

/-- The head ids and timestamps that a call passes to the backend are at most
`i64::MAX`. -/
def StoreOp.NumbersFit (env : CallEnv) : StoreOp → Prop
  | .appendMessage _ => Sqlite.Fits env.now
  | .fetchMessages query => Sqlite.Fits query.fromHeadId
  | .putReplicatedMessage m => Sqlite.Fits m.headId ∧ Sqlite.Fits m.createdAtMs
  | .tombstoneRange _ _ first last =>
      Sqlite.Fits first ∧ Sqlite.Fits last ∧ Sqlite.Fits env.now
  | .tombstoneRangeWithMarker _ _ first last _ _ =>
      Sqlite.Fits first ∧ Sqlite.Fits last ∧ Sqlite.Fits env.now ∧ Sqlite.Fits env.later
  | .enqueueFifo _ => Sqlite.Fits env.now
  | _ => True

/-- The id a call stores belongs to no other log position, or to no other FIFO
entry. -/
def StoreOp.IdsFresh (b : Logs) (q : Queues) (env : CallEnv) : StoreOp → Prop
  | .appendMessage m => ∀ k n old, b.message k n = some old → old.id ≠ m.id
  | .putReplicatedMessage m => ∀ k n old, b.message k n = some old → old.id = m.id →
      k = m.log ∧ n = m.headId
  | .tombstoneRangeWithMarker _ _ _ _ _ _ =>
      ∀ k n old, b.message k n = some old → old.id ≠ env.id
  | .enqueueFifo m => ∀ a old, q.waiting a = some old → old.id ≠ m.id
  | _ => True

structure CountersBelow (b : Logs) (q : Queues) : Prop where
  heads : ∀ k, (b.current k).toNat < i64Max
  sequences : ∀ queue, (q.last queue).toNat < i64Max

structure Admissible (b : Logs) (q : Queues) (env : CallEnv) (op : StoreOp) : Prop where
  names : op.NamesValid env
  numbers : op.NumbersFit env
  ids : op.IdsFresh b q env
  counters : CountersBelow b q
  paired : op.Paired

omit [Formats] in
theorem CountersBelow.fits_head {b : Logs} {q : Queues} (h : CountersBelow b q) (k : LogKey) :
    Sqlite.Fits ((b.current k).saturatingAdd 1) := by
  have hlt := h.heads k
  unfold Sqlite.Fits i64Max at *
  rw [UInt64.toNat_saturatingAdd_one]
  omega

theorem Admissible.accepts {b : Logs} {q : Queues} {env : CallEnv} {op : StoreOp}
    (h : Admissible b q env op) : Sqlite.Accepts b env op := by
  cases op with
  | appendMessage m => exact ⟨h.numbers, h.counters.fits_head _, h.ids⟩
  | fetchMessages query => exact h.numbers
  | putReplicatedMessage m => exact ⟨h.numbers.1, h.numbers.2, h.ids⟩
  | tombstoneRange topic origin first last => exact h.numbers
  | tombstoneRangeWithMarker topic origin first last markerTopic markerOrigin =>
      obtain ⟨hfirst, hlast, hnow, hlater⟩ := h.numbers
      exact ⟨hfirst, hlast, hnow, hlater, h.counters.fits_head _, h.ids⟩
  | _ => trivial

def Queues.Readable (q : Queues) : Prop := ∀ a m, q.waiting a = some m → m.Readable

omit [Formats] in
theorem Admissible.acceptsQueues {b : Logs} {q : Queues} {env : CallEnv} {op : StoreOp}
    (hq : q.WellFormed) (hreadable : q.Readable) (h : Admissible b q env op) :
    Sqlite.AcceptsQueues q env op := by
  cases op with
  | peekFifo queue => exact fun m hm => hreadable _ m hm.1
  | ackFifo queue messageId => exact fun m hm => hreadable _ m hm.1
  | rejectFifo queue messageId => exact fun m hm => hreadable _ m hm.1
  | enqueueFifo m =>
      have hlt := h.counters.sequences m.queue
      have hsequence : (q.enqueued m env.now).sequence.toNat = (q.last m.queue).toNat + 1 := by
        change ((q.last m.queue).saturatingAdd 1).toNat = _
        rw [UInt64.toNat_saturatingAdd_one]
        unfold i64Max at hlt
        omega
      refine ⟨?_, ?_, h.ids, h.numbers⟩
      · unfold Sqlite.Fits
        omega
      · rw [Option.eq_none_iff_forall_ne_some]
        intro old hold
        have hbound := hq.bounded _ _ old hold
        omega
  | _ => trivial

theorem readable_of_step {env : CallEnv} {op : StoreOp} {r : op.Result} {b b' : Logs}
    (hb : Sqlite.Readable b) (hnames : op.NamesValid env) (h : Logs.Step env op r b b') :
    Sqlite.Readable b' := by
  intro k n m hm
  rcases Logs.step_message_cases h hm with ⟨old, hold, hkeeps⟩ | ⟨msg, rfl, rfl⟩ |
    ⟨msg, rfl, rfl⟩ | ⟨topic, origin, first, last, markerTopic, markerOrigin, rfl, rfl⟩
  · have hvalid := hb k n old hold
    rw [hkeeps.1]
    exact hvalid
  · exact hnames
  · exact hnames
  · exact hnames

omit [Formats] in
theorem queuesReadable_of_step {env : CallEnv} {op : StoreOp} {r : op.Result} {q q' : Queues}
    (hq : q.Readable) (hnames : op.NamesValid env) (h : Queues.Step env op r q q') :
    q'.Readable := by
  intro a m hm
  rcases Queues.step_cases h with ⟨msg, rfl, rfl⟩ | ⟨queue, messageId, action, done, hfront⟩ |
    ⟨state, -, rfl⟩ | rfl
  · change Function.update q.waiting _ _ a = some m at hm
    rw [Function.update_apply] at hm
    split_ifs at hm
    · cases hm
      exact hnames
    · exact hq a m hm
  · obtain ⟨old, hold, hqueue, -, hid, htopic, -, -⟩ := hfront.waiting a m hm
    unfold StoredFifoMessage.Readable
    rw [hid, hqueue, htopic]
    exact hq a old hold
  · exact hq a m hm
  · exact hq a m hm

/-! ## The simulation -/

/-- Both stores hold the same logs, queues and peer records, and SQLite can read
all of them back. -/
structure Simulates (s : Redb) (t : Sqlite) : Prop where
  redb : s.Inv ∧ s.QueuesCoded
  sqlite : t.Inv ∧ t.QueuesCoded
  logs : t.logs = s.logs
  queues : t.queues = s.queues
  readable : Sqlite.Readable s.logs
  wellFormed : s.queues.WellFormed
  readableQueues : s.queues.Readable
  paired : s.queues.Paired

theorem simulates_empty :
    Simulates (MsgbusStore.empty : Redb) (MsgbusStore.empty : Sqlite) where
  redb := ⟨Redb.inv_openEmpty, Redb.queuesCoded_openEmpty⟩
  sqlite := ⟨Sqlite.inv_openEmpty, Sqlite.queuesCoded_openEmpty⟩
  logs := Sqlite.logs_openEmpty.trans Redb.logs_openEmpty.symm
  queues := rfl
  readable := by
    intro k n m hm
    rw [show (MsgbusStore.empty : Redb).logs = Logs.empty from Redb.logs_openEmpty] at hm
    cases hm
  wellFormed := Queues.wellFormed_empty
  readableQueues := fun a m hm => by cases hm
  paired := fun a state h => by cases h

theorem simulates_ok {s s' : Redb} {t t' : Sqlite} {env : CallEnv} {op : StoreOp}
    {r r' : op.Result} (h : Simulates s t) (hop : Admissible s.logs s.queues env op)
    (hs : op.exec s env = .ok (r, s')) (ht : op.exec t env = .ok (r', t')) :
    op.SameResult r r' ∧ Simulates s' t' := by
  obtain ⟨hinv, hstep⟩ := Redb.exec_refines h.redb.1 hs
  obtain ⟨hinv', hstep'⟩ := Sqlite.exec_refines h.sqlite.1 ht
  obtain ⟨hcoded, hqstep⟩ := Redb.exec_refines_queues h.redb.1 h.redb.2 hs
  obtain ⟨hcoded', hqstep'⟩ := Sqlite.exec_refines_queues h.sqlite.1 h.sqlite.2 ht
  have hq := hqstep (h.paired.pairedFor hop.paired)
  have hq' := hqstep' (h.queues ▸ h.paired.pairedFor hop.paired)
  rw [h.logs] at hstep'
  rw [h.queues] at hq'
  have hsame : op.SameResult r r' ∧ s'.logs = t'.logs ∧ s'.queues = t'.queues := by
    cases hlogs : op.onLogs with
    | true =>
        obtain ⟨hresult, heq⟩ := Logs.step_unique hlogs hstep hstep'
        exact ⟨hresult, heq, (Queues.eq_of_step_of_onLogs hlogs hq).trans
          (Queues.eq_of_step_of_onLogs hlogs hq').symm⟩
    | false =>
        obtain ⟨hresult, heq⟩ := Queues.step_unique hlogs hq hq'
        exact ⟨hresult, (Logs.eq_of_step_of_not_onLogs hlogs hstep).trans
          (Logs.eq_of_step_of_not_onLogs hlogs hstep').symm, heq⟩
  obtain ⟨hresult, hlogs, hqueues⟩ := hsame
  exact ⟨hresult,
    { redb := ⟨hinv, hcoded⟩
      sqlite := ⟨hinv', hcoded'⟩
      logs := hlogs.symm
      queues := hqueues.symm
      readable := readable_of_step h.readable hop.names hstep
      wellFormed := Queues.step_wellFormed h.wellFormed hq
      readableQueues := queuesReadable_of_step h.readableQueues hop.names hq
      paired := Queues.paired_of_step h.paired hop.paired hq }⟩

/-- An admissible call has the same outcome on both stores, and the stores
simulate each other afterwards. -/
theorem simulates_step {s : Redb} {t : Sqlite} {env : CallEnv} {op : StoreOp}
    (h : Simulates s t) (hop : Admissible s.logs s.queues env op) :
    op.SameOutcome (op.outcome s env) (op.outcome t env) ∧
      Simulates (op.after s env) (op.after t env) := by
  unfold StoreOp.outcome StoreOp.after
  cases hs : op.exec s env with
  | ok result =>
      obtain ⟨r, s'⟩ := result
      cases ht : op.exec t env with
      | ok result' => exact simulates_ok h hop hs ht
      | error e =>
          -- what redb takes, SQLite does not refuse
          exfalso
          cases hlogs : op.onLogs with
          | true =>
              have hrefuses := Logs.refuses_of_step (Redb.exec_refines h.redb.1 hs).2
              rw [← h.logs, Sqlite.exec_refused h.sqlite.1 hlogs (h.logs ▸ h.readable)
                (h.logs ▸ hop.accepts) ht] at hrefuses
              cases hrefuses
          | false =>
              have hout := Sqlite.exec_queues h.sqlite.2 env hlogs
              rw [ht] at hout
              exact hout (h.queues ▸ hop.acceptsQueues h.wellFormed h.readableQueues)
  | error e =>
      have hlogs : op.onLogs = true := by
        by_contra hqueue
        obtain ⟨r, s', hok, -⟩ := Redb.exec_queues h.redb.2 env (Bool.not_eq_true _ ▸ hqueue)
        rw [hs] at hok
        cases hok
      have hrefuses := Redb.exec_refused h.redb.1 hlogs hs
      cases ht : op.exec t env with
      | ok result =>
          obtain ⟨r, t'⟩ := result
          have hnone := Logs.refuses_of_step (Sqlite.exec_refines h.sqlite.1 ht).2
          rw [h.logs, hrefuses] at hnone
          cases hnone
      | error e' =>
          have hrefuses' := Sqlite.exec_refused h.sqlite.1 hlogs (h.logs ▸ h.readable)
            (h.logs ▸ hop.accepts) ht
          rw [h.logs, hrefuses] at hrefuses'
          exact ⟨Option.some.inj hrefuses', h⟩

def AdmissibleRun (calls : List (CallEnv × StoreOp)) : Prop :=
  ∀ before env op after, calls = before ++ (env, op) :: after →
    Admissible (runCalls before : Redb).logs (runCalls before : Redb).queues env op

theorem simulates_runCalls {calls : List (CallEnv × StoreOp)} (h : AdmissibleRun calls) :
    Simulates (runCalls calls) (runCalls calls) := by
  induction calls using List.reverseRecOn with
  | nil => exact simulates_empty
  | append_singleton calls call ih =>
      obtain ⟨env, op⟩ := call
      have hbefore : AdmissibleRun calls := by
        intro before env' op' after heq
        apply h before env' op' (after ++ [(env, op)])
        rw [heq, List.append_assoc, List.cons_append]
      have hsim := (simulates_step (ih hbefore) (h calls env op [] rfl)).2
      rw [runCalls, List.foldl_append, runCalls, List.foldl_append]
      exact hsim

/-- In an admissible run on two empty stores, every call returns the same on
both. -/
theorem backends_interchangeable {calls : List (CallEnv × StoreOp)} (hcalls : AdmissibleRun calls)
    {before after : List (CallEnv × StoreOp)} {env : CallEnv} {op : StoreOp}
    (h : calls = before ++ (env, op) :: after) :
    op.SameOutcome (op.outcome (runCalls before : Redb) env)
      (op.outcome (runCalls before : Sqlite) env) := by
  have hbefore : AdmissibleRun before := by
    intro before' env' op' after' heq
    apply hcalls before' env' op' (after' ++ (env, op) :: after)
    rw [h, heq, List.append_assoc, List.cons_append]
  exact (simulates_step (simulates_runCalls hbefore) (hcalls before env op after h)).1

def firstQuery : FetchQuery := ⟨⟨"t"⟩, ⟨"a", "b", "c"⟩, 1, 0⟩

def appendThenFetch : List (CallEnv × StoreOp) :=
  [(firstEnv, .appendMessage firstMessage), (firstEnv, .fetchMessages firstQuery)]

theorem admissible_first_append :
    Admissible (MsgbusStore.empty : Redb).logs (MsgbusStore.empty : Redb).queues firstEnv
      (.appendMessage firstMessage) := by
  have hlogs : (MsgbusStore.empty : Redb).logs = Logs.empty := Redb.logs_openEmpty
  rw [hlogs]
  have hnames : ValidPart "m" ∧ ValidPart "t" := by decide
  have hnow : Sqlite.Fits firstEnv.now := by decide
  refine ⟨hnames, hnow, ?_, ⟨fun k => ?_, fun queue => ?_⟩, trivial⟩
  · intro k n old hold
    cases hold
  · change (0 : UInt64).toNat < i64Max
    decide
  · change (0 : UInt64).toNat < i64Max
    decide

theorem admissible_first_fetch :
    Admissible (firstStore .redb : Redb).logs (firstStore .redb : Redb).queues firstEnv
      (.fetchMessages firstQuery) := by
  have hfits : Sqlite.Fits 1 := by decide
  refine ⟨trivial, hfits, trivial, ⟨fun k => ?_, fun queue => ?_⟩, trivial⟩
  · cases hget : (StorageKind.redb.logs (firstStore .redb)).head k with
    | none =>
        rw [show (firstStore .redb : Redb).logs.current k = 0 from congrArg (Option.getD · 0) hget]
        decide
    | some h =>
        rw [show (firstStore .redb : Redb).logs.current k = h from congrArg (Option.getD · 0) hget]
        have hle := head_le_one_of_fresh .redb (.appendMessage firstMessage) firstEnv hget
        exact Nat.lt_of_le_of_lt hle (by decide)
  · change (0 : UInt64).toNat < i64Max
    decide

theorem admissibleRun_appendThenFetch : AdmissibleRun appendThenFetch := by
  intro before env op after h
  rcases before with - | ⟨call, - | ⟨call', rest⟩⟩
  · cases h
    exact admissible_first_append
  · cases h
    exact admissible_first_fetch
  · simp [appendThenFetch] at h

omit [Formats] in
/-- An append and a fetch have the same outcomes in both backends. -/
theorem backends_interchangeable_two :
    letI := Serde.formats
    AdmissibleRun appendThenFetch ∧
      (StoreOp.fetchMessages firstQuery).SameOutcome
        ((StoreOp.fetchMessages firstQuery).outcome
          (runCalls [(firstEnv, .appendMessage firstMessage)] : Redb) firstEnv)
        ((StoreOp.fetchMessages firstQuery).outcome
          (runCalls [(firstEnv, .appendMessage firstMessage)] : Sqlite) firstEnv) := by
  have hsplit : appendThenFetch = [(firstEnv, .appendMessage firstMessage)] ++
      (firstEnv, .fetchMessages firstQuery) :: [] := rfl
  have hrun := @admissibleRun_appendThenFetch Serde.formats
  have hsame := @backends_interchangeable Serde.formats _ hrun _ _ _ _ hsplit
  constructor
  · exact hrun
  · exact hsame

end Msgbus

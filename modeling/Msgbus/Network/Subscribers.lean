import Msgbus.Limits
import Msgbus.Network.Agreement
import Msgbus.Network.Broadcasts
import Msgbus.Server.Delivery

/-!
# What subscribers see

A stream of one daemon among the tasks of all daemons: publishes, deletes and
passes commit and broadcast in any order before, while and after the stream reads
its replay, and a message may be broadcast again when a copy arrives that is
marked deleted.
-/

namespace Msgbus

/-! ## What is broadcast -/

theorem grows_refl {ι : Type} (w : ι → Logs) (i : ι) : (w i).Grows (w i) := .refl (w i)

def heldKnowledge {ι : Type} (node : ι → NodeId) : Knowledge ι (ι → Logs) where
  node := node
  Later := fun w w' => ∀ i, (w i).Grows (w' i)
  refl := grows_refl
  trans := fun h₁ h₂ i => (h₁ i).trans (h₂ i)
  Known := fun _ _ => True
  known_later := fun _ h => h
  Listed := fun _ _ => True
  listed_later := fun _ h => h
  Wanted := fun _ _ _ => True
  Held := fun _ _ _ => True
  held_later := fun _ h => h
  held_of_known := fun _ _ => trivial
  Sent := fun i w m => (w i).Holds m
  sent_later := fun hlater h => h.grows (hlater _)

variable [Formats]

namespace Network

open System Program

variable {ι : Type} [DecidableEq ι] {N : Network ι}

theorem grows_of_answers {i : ι} {s s' : N.Stores} {op : StoreOp}
    {answer : Except MsgbusError op.Result} (hs : N.Inv s)
    (h : (N.exposed.restrict N.BelowLimit).Answers i s (.store op) answer s') :
    N.Inv s' ∧ (∀ j, (N.view s j).Grows (N.view s' j)) ∧
      ∀ result, answer = .ok result → ∃ env, Logs.Step env op result (N.view s i) (N.view s' i) := by
  obtain ⟨hlimit, t, hstore, rfl⟩ := h
  rw [view_update]
  rcases storeAnswers_cases (hs i) hstore with ⟨env, result, -, rfl, ht, hstep⟩ | ⟨⟨e, rfl⟩, rfl⟩
  · refine ⟨inv_update hs ht, ?_, ?_⟩
    · refine (Function.forall_update_iff (N.view s) fun j b => (N.view s j).Grows b).mpr
        ⟨Logs.step_grows (wellFormed_view hs i) hlimit hstep, fun j _ => .refl _⟩
    · rintro result ⟨⟩
      rw [Function.update_self]
      exact ⟨env, hstep⟩
  · refine ⟨?_, ?_, ?_⟩
    · rw [Function.update_eq_self]
      exact hs
    · rw [show Function.update (N.view s) i ((N.storage i).logs (s i)) = N.view s from
        Function.update_eq_self i _]
      exact fun j => .refl _
    · rintro result ⟨⟩

theorem honours_held :
    (N.exposed.restrict N.BelowLimit).Honours (heldKnowledge N.node).contract N.view N.Inv := by
  apply Knowledge.honours_of_calls
  · intro i s op answer s' hs _ hanswer
    obtain ⟨hs', hgrows, hstep⟩ := grows_of_answers hs hanswer
    refine ⟨hs', hgrows, ?_⟩
    cases op with
    | appendMessage msg =>
        intro m hm
        obtain ⟨env, rfl, happend⟩ := hstep m hm
        change (N.view s' i).Holds _
        rw [happend]
        exact Logs.holds_append msg env.now
    | putReplicatedMessage m =>
        intro hinserted
        obtain ⟨env, -, hput⟩ := hstep _ hinserted
        exact Logs.holds_of_inserted hput
    | tombstoneRangeWithMarker topic origin first last markerTopic markerOrigin =>
        intro result hresult
        obtain ⟨env, -, -, hmarker, happend⟩ := hstep result hresult
        change (N.view s' i).Holds result.2
        rw [hmarker, happend]
        exact Logs.holds_append _ env.later
    | fetchMessages query => exact fun _ _ _ _ => trivial
    | getHead topic origin => exact fun _ _ _ _ _ _ _ => trivial
    | _ => trivial
  · rintro i s c answer s' hs hc ⟨-, hanswer⟩
    cases exposedAnswers_eq_of_ne_store hanswer hc
    exact ⟨hs, fun j => .refl _⟩
  · rintro i s id s' ⟨-, hid, -⟩
    exact hid
  · exact fun _ _ _ _ _ _ _ _ _ _ _ => trivial
  · exact fun _ _ _ _ _ _ _ _ _ _ _ _ _ _ _ => trivial

/-- The stores keep their invariants, the tasks their contract, and every
broadcast is held by the store of its daemon. -/
structure Audible (N : Network ι)
    (a : State ι (N.Stores × List (Event ι Command Command.Answer)) Command Command.Answer) :
    Prop where
  kept : Kept (heldKnowledge N.node).contract (fun s => N.view s.1) (fun s => N.Inv s.1) a
  held : ∀ i, ∀ m ∈ broadcasts i a.shared.2, (N.view a.shared.1 i).Holds m

theorem Audible.step
    {a b : State ι (N.Stores × List (Event ι Command Command.Answer)) Command Command.Answer}
    (ha : N.Audible a) (hstep : (N.exposed.restrict N.BelowLimit).traced.Step a b) :
    N.Audible b ∧ ∀ i, (N.view a.shared.1 i).Grows (N.view b.shared.1 i) := by
  have hgrows : ∀ i, (N.view a.shared.1 i).Grows (N.view b.shared.1 i) :=
    ha.kept.later honours_held.traced hstep
  refine ⟨⟨?_, ?_⟩, hgrows⟩
  · exact kept_step (fun _ _ w hstarts => meets_of_starts rfl hstarts w) honours_held.traced ha.kept
      hstep
  · intro i m hm
    cases hstep with
    | start hstart => exact ha.held i m hm
    | @answer n j c next answer s' htask hanswer =>
        rw [hanswer.2, broadcasts_cons] at hm
        rcases List.mem_append.mp hm with hold | hnew
        · exact (ha.held i m hold).grows (hgrows i)
        · -- what is sent now is held already
          obtain ⟨sent, hevent⟩ := broadcast_eq_some (Option.mem_toList.mp hnew)
          cases hevent
          exact ((ha.kept.requires htask).1 : (N.view a.shared.1 i).Holds m).grows (hgrows i)

theorem audible_of_reaches {s₀ : N.Stores} (hs : N.Inv s₀)
    {a : State ι (N.Stores × List (Event ι Command Command.Answer)) Command Command.Answer}
    (hrun : (N.exposed.restrict N.BelowLimit).traced.Reaches (.init (s₀, [])) a) : N.Audible a := by
  refine hrun.invariant ⟨⟨hs, ?_⟩, ?_⟩ fun a b ha hstep => (ha.step hstep).1
  · intro n i p htask
    cases htask
  · intro i m hm
    cases hm

/-! ## A stream among the daemons -/

inductive Watches {S : Type}
    (sys : System ι (S × List (Event ι Command Command.Answer)) Command Command.Answer) (i : ι)
    (fetched : S → FetchQuery → Except MsgbusError (List StoredMessage) → Prop) :
    State ι (S × List (Event ι Command Command.Answer)) Command Command.Answer × SubscribeStream →
    State ι (S × List (Event ι Command Command.Answer)) Command Command.Answer × SubscribeStream →
      Prop where
  | daemons {a b : State ι (S × List (Event ι Command Command.Answer)) Command Command.Answer}
      {t : SubscribeStream} (h : sys.Step a b) : Watches sys i fetched (a, t) (b, t)
  | stream {a : State ι (S × List (Event ι Command Command.Answer)) Command Command.Answer}
      {t t' : SubscribeStream} (h : t.Step (fetched a.shared.1) (broadcasts i a.shared.2) t') :
      Watches sys i fetched (a, t) (a, t')

section Watching

variable {S : Type}
variable {sys : System ι (S × List (Event ι Command Command.Answer)) Command Command.Answer}
variable {i : ι} {fetched : S → FetchQuery → Except MsgbusError (List StoredMessage) → Prop}
variable {a b : State ι (S × List (Event ι Command Command.Answer)) Command Command.Answer}
variable {t u : SubscribeStream}

omit [Formats] in
theorem watches_invariant
    {P : State ι (S × List (Event ι Command Command.Answer)) Command Command.Answer →
      SubscribeStream → Prop}
    (hrun : Relation.ReflTransGen (Watches sys i fetched) (a, t) (b, u)) (hstart : P a t)
    (hdaemons : ∀ a b t, P a t → sys.Step a b → P b t)
    (hstream : ∀ a t u, P a t → t.Step (fetched a.shared.1) (broadcasts i a.shared.2) u → P a u) :
    P b u := by
  generalize hfinal : (b, u) = final at hrun
  induction hrun generalizing b u with
  | refl =>
      cases hfinal
      exact hstart
  | tail _ hstep ih =>
      subst hfinal
      cases hstep with
      | daemons h => exact hdaemons _ _ _ (ih rfl) h
      | stream h => exact hstream _ _ _ (ih rfl) h

omit [Formats] in
theorem watches_of_reaches (h : sys.Reaches a b) (t : SubscribeStream) :
    Relation.ReflTransGen (Watches sys i fetched) (a, t) (b, t) := by
  induction h with
  | refl => exact .refl
  | tail _ hstep ih => exact ih.tail (.daemons hstep)

omit [Formats] in
theorem watches_of_restrict
    {Cond : ι → S × List (Event ι Command Command.Answer) → (c : Command) → c.Answer → Prop}
    (h : Relation.ReflTransGen (Watches (sys.restrict Cond) i fetched) (a, t) (b, u)) :
    Relation.ReflTransGen (Watches sys i fetched) (a, t) (b, u) := by
  refine Relation.ReflTransGen.mono ?_ _ _ h
  rintro _ _ (hstep | hstep)
  · exact .daemons hstep.of_restrict
  · exact .stream hstep

end Watching

def Fetches (N : Network ι) (i : ι) (s : N.Stores) (query : FetchQuery)
    (answer : Except MsgbusError (List StoredMessage)) : Prop :=
  StoreAnswers (s i) (.fetchMessages query) answer (s i)

omit [DecidableEq ι] in
theorem Fetches.eq_window {i : ι} {s : N.Stores} {query : FetchQuery}
    {messages : List StoredMessage} (hs : N.Inv s) (h : N.Fetches i s query (.ok messages)) :
    messages = (N.view s i).window (LogKey.of query.topic query.origin) query.fromHeadId
      (effectiveLimit query.limit) := by
  rcases storeAnswers_cases (hs i) h with ⟨env, result, -, hresult, -, hstep⟩ | ⟨⟨e, herror⟩, -⟩
  · cases hresult
    exact hstep.1
  · cases herror

/-- In every run below the counter limit, a stream delivers its log in the order
of the heads, from where it was asked to start, and what it delivered is what the
log holds up to deleted flags. -/
theorem stream_in_order {s₀ : N.Stores} (hs : ∀ j, Reachable (s₀ j)) {i : ι}
    {request : Pb.SubscribeRequest} {query : FetchQuery}
    (hquery : subscribeQuery (N.node i) request = .ok query)
    {a₀ a : State ι (N.Stores × List (Event ι Command Command.Answer)) Command Command.Answer}
    {t : SubscribeStream}
    (hbefore : (N.exposed.restrict N.BelowLimit).traced.Reaches (.init (s₀, [])) a₀)
    (hrun : Relation.ReflTransGen
      (Watches (N.exposed.restrict N.BelowLimit).traced i (N.Fetches i))
      (a₀, .subscribe query (broadcasts i a₀.shared.2)) (a, t)) :
    t.delivered.Pairwise (fun m m' => m.headId < m'.headId) ∧
      ∀ m ∈ t.delivered, max request.fromHeadId 1 ≤ m.headId ∧
        ∃ stored, (N.view a.shared.1 i).message (LogKey.of query.topic query.origin) m.headId =
          some stored ∧ stored.withDeleted false = m.withDeleted false := by
  have hfrom := subscribeQuery_fromHeadId hquery
  have hfirst : 1 ≤ query.fromHeadId.toNat := by
    rw [hfrom, UInt64.toNat_max]
    exact Nat.le_max_right _ _
  have hstart : N.Audible a₀ := audible_of_reaches (fun j => Backend.inv_of_reachable (hs j)) hbefore
  have hinvariant : N.Audible a ∧ t.query = query ∧ t.InOrder (N.view a.shared.1 i) := by
    refine watches_invariant (P := fun a t => N.Audible a ∧ t.query = query ∧
      t.InOrder (N.view a.shared.1 i)) hrun
      ⟨hstart, rfl, SubscribeStream.inOrder_subscribe hfirst _⟩ ?_ ?_
    · rintro a b t ⟨haudible, hsame, horder⟩ hstep
      obtain ⟨haudible', hgrows⟩ := haudible.step hstep
      exact ⟨haudible', hsame, horder.grows (hgrows i)⟩
    · rintro a t u ⟨haudible, hsame, horder⟩ hstep
      refine ⟨haudible, hstep.query_eq.trans hsame, ?_⟩
      refine horder.step (wellFormed_view haudible.kept.1 i) ?_ (haudible.held i) hstep
      exact fun messages hpage => ⟨_, hpage.eq_window haudible.kept.1⟩
  obtain ⟨-, hsame, horder⟩ := hinvariant
  constructor
  · refine ((List.pairwise_append.mp horder.sorted).1).imp ?_
    intro m m' hlt
    exact UInt64.lt_iff_toNat_lt.mpr hlt
  · intro m hm
    obtain ⟨hle, hlog, stored, hstored, hcontent⟩ := horder.held m (List.mem_append_left _ hm)
    rw [hlog, SubscribeStream.log, hsame] at hstored
    rw [hsame, hfrom] at hle
    exact ⟨UInt64.le_iff_toNat_le.mpr hle, stored, hstored, hcontent⟩

/-! ## A stream on a log that is overwritten -/

omit [Formats] in
theorem subscribeQuery_self (node : NodeId) {topic : String} (hvalid : ValidPart topic)
    (first : UInt64) (limit : UInt32) :
    subscribeQuery node ⟨topic, none, first, limit⟩ = .ok ⟨⟨topic⟩, node, max first 1,
      if limit = 0 then defaultReplayLimit else limit⟩ := by
  have htopic : Topic.new topic = .ok ⟨topic⟩ := Topic.new_eq_ok.mpr ⟨hvalid, rfl⟩
  unfold subscribeQuery
  rw [htopic]
  rfl

theorem fetches_solo {s : solo.Stores} (hs : ∀ j, Reachable (s j)) (query : FetchQuery) :
    solo.Fetches () s query (.ok ((solo.view s ()).window (LogKey.of query.topic query.origin)
      query.fromHeadId (effectiveLimit query.limit))) := by
  have hinv : StorageKind.redb.Inv (s ()) := Backend.inv_of_reachable (hs ())
  have hexec : (StoreOp.fetchMessages query).exec (s ()) ⟨0, 0, ⟨"m"⟩⟩ = .ok (_, s ()) :=
    congrArg (Except.map (·, s ())) (Redb.fetchMessages_eq hinv query)
  exact handlerAnswers_read (by decide) hexec

theorem exists_fetches_head {s : solo.Stores} (hs : ∀ j, Reachable (s j)) {head : HeadId}
    (hhead : (solo.view s ()).current entryLog = head) (hpos : 0 < head.toNat) :
    ∃ m, (solo.view s ()).message entryLog head = some m ∧ m.headId = head ∧
      solo.Fetches () s ⟨⟨"t"⟩, solo.node (), head, 1⟩ (.ok [m]) := by
  have hwf : (solo.view s ()).WellFormed := Backend.wellFormed (Backend.inv_of_reachable (hs ()))
  subst hhead
  obtain ⟨m, hm⟩ := Option.isSome_iff_exists.mp
    ((hwf.contiguous entryLog _).mpr ⟨hpos, Nat.le_refl _⟩)
  refine ⟨m, hm, (hwf.positioned _ _ m hm).1, ?_⟩
  have hfetch := fetches_solo hs ⟨⟨"t"⟩, solo.node (), (solo.view s ()).current entryLog, 1⟩
  change solo.Fetches () s _ (.ok ((solo.view s ()).window entryLog _ (effectiveLimit 1))) at hfetch
  rw [Logs.window_current hwf hm (effectiveLimit_pos 1)] at hfetch
  exact hfetch

def replayedOne (query : FetchQuery) (channel : List StoredMessage) (m : StoredMessage) :
    SubscribeStream :=
  { SubscribeStream.subscribe query channel with
    phase := .forwarding []
    lastSent := max (query.fromHeadId.saturatingSub 1) m.headId
    delivered := [m] }

section Replaying

variable {S : Type}
  {sys : System ι (S × List (Event ι Command Command.Answer)) Command Command.Answer} {i : ι}
  {fetched : S → FetchQuery → Except MsgbusError (List StoredMessage) → Prop}
  {a : State ι (S × List (Event ι Command Command.Answer)) Command Command.Answer}

omit [Formats] in
theorem watches_replayedOne {query : FetchQuery} {m : StoredMessage}
    (hpage : fetched a.shared.1 query (.ok [m])) :
    Relation.ReflTransGen (Watches sys i fetched)
      (a, .subscribe query (broadcasts i a.shared.2))
      (a, replayedOne query (broadcasts i a.shared.2) m) := by
  let t : SubscribeStream := { SubscribeStream.subscribe query (broadcasts i a.shared.2) with
    phase := .forwarding [m] }
  have hfetched : Watches sys i fetched (a, .subscribe query (broadcasts i a.shared.2)) (a, t) :=
    .stream (.fetched rfl hpage)
  have hreplayed : Watches sys i fetched (a, t) (a, t.replayed m []) := .stream (.replay rfl)
  exact (Relation.ReflTransGen.single hfetched).tail hreplayed

omit [Formats] in
theorem exists_forwarded {query : FetchQuery} {channel : List StoredMessage} {m m' : StoredMessage}
    (hchannel : broadcasts i a.shared.2 = channel ++ [m']) (htopic : m'.topic = query.topic)
    (horigin : m'.origin = query.origin)
    (hbeyond : max (query.fromHeadId.saturatingSub 1) m.headId < m'.headId) :
    ∃ t, Watches sys i fetched (a, replayedOne query channel m) (a, t) ∧ t.delivered = [m, m'] := by
  have hread := (replayedOne query channel m).received_of_wanted ⟨⟨htopic, horigin⟩, hbeyond⟩
  refine ⟨(replayedOne query channel m).received m', .stream ?_, ?_⟩
  · rw [hchannel]
    exact SubscribeStream.step_last rfl rfl
  · rw [hread]
    rfl

end Replaying

def posted (payload : ByteArray) : NewMessage := ⟨⟨"m"⟩, ⟨"t"⟩, ⟨"a", "b", "c"⟩, payload, .empty⟩

theorem exists_runs_publish {Cond : Unit → solo.Stores → (c : Command) → c.Answer → Prop}
    (hcond : ∀ s c answer, (∀ op, c ≠ .store op) → Cond () s c answer)
    {s : solo.Stores} (hs : ∀ j, Reachable (s j)) (events : List (Event Unit Command Command.Answer))
    {payload : ByteArray}
    (happends : ∀ answer, Cond () s (.store (.appendMessage (posted payload))) answer) :
    ∃ (m : StoredMessage) (s' : solo.Stores) (events' : List (Event Unit Command Command.Answer)),
      Runs ((solo.exposed.restrict Cond).traced.Answers ()) (s, events)
        (publish (solo.node ()) ⟨"t", none, payload, .empty⟩) (.ok (protoMessage m)) (s', events') ∧
      (∀ j, Reachable (s' j)) ∧ m = (solo.view s ()).appended (posted payload) 0 ∧
      solo.view s' () = (solo.view s ()).append (posted payload) 0 ∧
      broadcasts () events' = broadcasts () events ++ [m] := by
  have hid : ValidPart (CallEnv.id ⟨0, 0, ⟨"m"⟩⟩).value := by decide
  have hop : (StoreOp.appendMessage (posted payload)).onLogs = true := rfl
  obtain ⟨(m : StoredMessage), t, happend, ht, hm, hlogs⟩ :=
    exists_storeAnswers (hs ()) hid hop trivial rfl
  let drawn : Event Unit Command Command.Answer := ((), ⟨.newMessageId, (⟨"m"⟩ : MessageId)⟩)
  let appended : Event Unit Command Command.Answer :=
    ((), ⟨.store (.appendMessage (posted payload)), Except.ok m⟩)
  let sys := (solo.exposed.restrict Cond).traced
  have hdrawn : sys.Answers () (s, events) .newMessageId (⟨"m"⟩ : MessageId) (s, drawn :: events) :=
    ⟨⟨hcond _ _ _ fun _ h => (by cases h), hid, rfl⟩, rfl⟩
  have happended : sys.Answers () (s, drawn :: events) (.store (.appendMessage (posted payload)))
      (Except.ok m) (Function.update s () t, appended :: drawn :: events) :=
    ⟨⟨happends _, t, happend, rfl⟩, rfl⟩
  have hsent : sys.Answers () (Function.update s () t, appended :: drawn :: events) (.send m) ()
      (Function.update s () t, ((), ⟨.send m, ()⟩) :: appended :: drawn :: events) :=
    ⟨⟨hcond _ _ _ fun _ h => (by cases h), rfl⟩, rfl⟩
  have htarget : writeTarget (solo.node ()) "t" none = .ok (⟨"t"⟩, solo.node ()) :=
    writeTarget_self (solo.node ()) (by decide) (by decide)
  refine ⟨m, _, _, runs_publish htarget hdrawn happended hsent, fun _ => ht, hm, hlogs, ?_⟩
  calc broadcasts () (((), ⟨.send m, ()⟩) :: appended :: drawn :: events)
      = broadcasts () (appended :: drawn :: events) ++ [m] := broadcasts_send m _
    _ = broadcasts () (drawn :: events) ++ [m] := congrArg (· ++ [m]) (broadcasts_store () _ _)
    _ = broadcasts () events ++ [m] := by
        rw [broadcasts_cons]
        exact congrArg (· ++ [m]) (List.append_nil _)

omit [Formats] in
/-- A stream replays the one message of a log and forwards the one that is published
after it. -/
theorem stream_in_order_two : letI := Serde.formats
    ∃ (s₀ : solo.Stores)
      (a : State Unit (solo.Stores × List (Event Unit Command Command.Answer)) Command
        Command.Answer) (t : SubscribeStream) (m m' : StoredMessage),
      (∀ j, Reachable (s₀ j)) ∧
      Relation.ReflTransGen
        (Watches (solo.exposed.restrict solo.BelowLimit).traced () (solo.Fetches ()))
        (.init (s₀, []), .subscribe ⟨⟨"t"⟩, solo.node (), 1, 1⟩ []) (a, t) ∧
      t.delivered = [m, m'] ∧ 1 ≤ m.headId ∧ m.headId < m'.headId ∧
      ∃ stored, (solo.view a.shared.1 ()).message entryLog m'.headId = some stored ∧
        stored.withDeleted false = m'.withDeleted false := by
  let := Serde.formats
  obtain ⟨s, hreachable, hfilled, -⟩ := exists_filled_store 1 (by decide)
  let s₀ : solo.Stores := fun _ => s
  have hs : ∀ j, Reachable (s₀ j) := fun _ => hreachable
  have hcurrent : (solo.view s₀ ()).current entryLog = 1 := UInt64.toNat_inj.mp hfilled
  obtain ⟨m, -, hheadId, hpage⟩ := exists_fetches_head hs hcurrent (by decide)
  have hroom : (solo.view s₀ ()).current entryLog ≠ UInt64.maxValue := by
    rw [hcurrent]
    decide
  have hidle (s : solo.Stores) (c : Command) (answer : c.Answer) (hc : ∀ op, c ≠ .store op) :
      solo.BelowLimit () s c answer := by
    cases c with
    | store op => exact absurd rfl (hc op)
    | _ => trivial
  have happends (answer) : solo.BelowLimit () s₀ (.store (.appendMessage (posted .empty))) answer := by
    rintro k ⟨⟩
    exact hroom
  obtain ⟨m', s', events', hruns, -, hm', -, hchannel⟩ :=
    @exists_runs_publish _ solo.BelowLimit hidle s₀ hs [] .empty happends
  have hnext : m'.headId = 2 := by
    rw [hm', Logs.appended_headId]
    exact (congrArg (UInt64.saturatingAdd · 1) hcurrent).trans rfl
  have hpublish : (solo.exposed.restrict solo.BelowLimit).traced.Reaches (.init (s₀, []))
      ⟨(s', events'), [((), .ret ())]⟩ :=
    reaches_task (Starts.publish _) hruns.discard []
  obtain ⟨t, hforwarded, hdelivered⟩ := @exists_forwarded Unit _ _
    (solo.exposed.restrict solo.BelowLimit).traced () (solo.Fetches ())
    ⟨(s', events'), [((), .ret ())]⟩ ⟨⟨"t"⟩, solo.node (), 1, 1⟩ [] m m' hchannel (by rw [hm']; rfl)
    (by rw [hm']; rfl) (by rw [hheadId, hnext]; decide)
  have hrun : Relation.ReflTransGen
      (Watches (solo.exposed.restrict solo.BelowLimit).traced () (solo.Fetches ()))
      (.init (s₀, []), .subscribe ⟨⟨"t"⟩, solo.node (), 1, 1⟩ []) (_, t) :=
    ((watches_replayedOne hpage).trans (watches_of_reaches hpublish _)).tail hforwarded
  obtain ⟨hsorted, hheld⟩ :=
    stream_in_order hs (subscribeQuery_self (solo.node ()) (by decide) 1 1) .refl hrun
  rw [hdelivered] at hsorted hheld
  exact ⟨s₀, _, t, m, m', hs, hrun, hdelivered, (hheld m (by simp)).1,
    List.rel_of_pairwise_cons hsorted (List.mem_singleton_self m'), (hheld m' (by simp)).2⟩

omit [Formats] in
/-- A stream sends the last message of a full log, and a publish replaces it. -/
theorem delivered_message_overwritten : letI := Serde.formats
    ∃ (s₀ : solo.Stores) (query : FetchQuery)
      (a : State Unit (solo.Stores × List (Event Unit Command Command.Answer)) Command
        Command.Answer) (t : SubscribeStream) (m stored : StoredMessage),
      (∀ j, Reachable (s₀ j)) ∧
      subscribeQuery (solo.node ()) ⟨"t", none, UInt64.maxValue, 1⟩ = .ok query ∧
      Relation.ReflTransGen (Watches solo.exposed.traced () (solo.Fetches ()))
        (.init (s₀, []), .subscribe query []) (a, t) ∧
      m ∈ t.delivered ∧
      (solo.view a.shared.1 ()).message (LogKey.of query.topic query.origin) m.headId =
        some stored ∧ m.payload = ⟨#[]⟩ ∧ stored.payload = ⟨#[1]⟩ := by
  let := Serde.formats
  obtain ⟨s, hreachable, hfull, hpayload⟩ := exists_filled_store (2 ^ 64 - 1) (by decide)
  let s₀ : solo.Stores := fun _ => s
  have hs : ∀ j, Reachable (s₀ j) := fun _ => hreachable
  have hcurrent : (solo.view s₀ ()).current entryLog = UInt64.maxValue :=
    UInt64.toNat_inj.mp hfull
  obtain ⟨m, hm, hheadId, hpage⟩ := exists_fetches_head hs hcurrent (by decide)
  obtain ⟨stored, s', events', hruns, -, hstored, hlogs, -⟩ :=
    @exists_runs_publish _ (fun _ _ _ _ => True) (fun _ _ _ _ => trivial) s₀ hs [] ⟨#[1]⟩
      fun _ => trivial
  have hpublish : solo.exposed.traced.Reaches (.init (s₀, [])) ⟨(s', events'), [((), .ret ())]⟩ :=
    reaches_task (Starts.publish _)
      (hruns.mono fun _ _ _ _ hanswer => ⟨hanswer.1.2, hanswer.2⟩).discard []
  refine ⟨s₀, _, _, _, m, stored, hs, subscribeQuery_self (solo.node ()) (by decide) _ _,
    (watches_replayedOne hpage).trans (watches_of_reaches hpublish _),
    List.mem_singleton_self m, ?_, hpayload _ m hm, ?_⟩
  · have hnext : stored.headId = m.headId := by
      rw [hstored, hheadId]
      exact (congrArg (UInt64.saturatingAdd · 1) hcurrent).trans rfl
    change (solo.view s' ()).message entryLog m.headId = some stored
    rw [hlogs, ← hnext, hstored]
    exact Logs.write_message_self
  · rw [hstored]
    rfl

end Network

end Msgbus

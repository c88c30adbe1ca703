import Msgbus.Network.Subscribers

/-!
# Concurrent publishes

A publish commits its message in one step and broadcasts it in a later one, and
nothing orders the broadcasts of two publishes.  A stream sees no gap if they are
in the order of the commits.
-/

namespace Msgbus

open Program System

variable {ι : Type} {node : ι → NodeId}

/-! ## The contract of publishes -/

def Committed (node : ι → NodeId) (events : List (Event ι Command Command.Answer)) (i : ι)
    (m : StoredMessage) : Prop :=
  ∃ msg : NewMessage, msg.origin = node i ∧
    ((i, ⟨.store (.appendMessage msg), Except.ok m⟩) : Event ι Command Command.Answer) ∈ events

def PublishCalls (node : ι → NodeId) (i : ι) (events : List (Event ι Command Command.Answer)) :
    Command → Prop
  | .newMessageId => True
  | .store (.appendMessage msg) => msg.origin = node i
  | .send m => Committed node events i m
  | _ => False

def publishContract (node : ι → NodeId) :
    Contract ι (List (Event ι Command Command.Answer)) Command Command.Answer where
  Later := fun events events' => ∀ event ∈ events, event ∈ events'
  refl := fun _ _ h => h
  trans := fun h₁ h₂ event h => h₂ event (h₁ event h)
  Requires := fun i events c _ => PublishCalls node i events c
  requires_mono := fun _ h => h
  Ensures := fun i events c answer => (i, ⟨c, answer⟩) ∈ events

open Contract in
theorem keeps_publish (i : ι) (request : Pb.PublishRequest)
    (events : List (Event ι Command Command.Answer)) :
    (publishContract node).Keeps i (publish (node i) request) events := by
  refine keeps_bind_of (P := fun target _ => target.2 = node i)
    (meets_ofExcept ⟨fun _ h => h, fun _ h => (Knowledge.writeTarget_eq_ok h).1⟩) ?_
  rintro ⟨topic, origin⟩ events₁ - rfl
  refine keeps_call (fun _ _ => trivial) fun id events₂ _ _ => ?_
  refine keeps_call (fun _ _ => rfl) fun answer events₃ _ hrecorded => ?_
  cases answer with
  | error e => exact keeps_fail _
  | ok stored =>
      refine keeps_call (fun events₄ hlater => ?_) fun _ _ _ _ => keeps_ret _
      exact ⟨_, rfl, hlater _ hrecorded⟩

namespace Network

variable [DecidableEq ι] [Formats] {N : Network ι}

def publishing (N : Network ι) : System ι N.Stores Command Command.Answer where
  Starts := fun i p => ∃ request, p = (publish (N.node i) request).discard
  Answers := N.ExposedAnswers

/-- Daemon `i` broadcasts a message of the log only after those that were committed
at lower positions beyond `base`. -/
def InCommitOrder (N : Network ι) (i : ι) (k : LogKey) (base : Nat) (j : ι)
    (s : N.Stores × List (Event ι Command Command.Answer)) : (c : Command) → c.Answer → Prop
  | .send m, _ => j = i → m.log = k → ∀ m', Committed N.node s.2 i m' → m'.log = k →
      base < m'.headId.toNat → m'.headId < m.headId → m' ∈ broadcasts i s.2
  | _, _ => True

omit [Formats] in
theorem InCommitOrder.raise {i j : ι} {k : LogKey} {base base' : Nat}
    {s : N.Stores × List (Event ι Command Command.Answer)} {c : Command} {answer : c.Answer}
    (h : N.InCommitOrder i k base j s c answer) (hle : base ≤ base') :
    N.InCommitOrder i k base' j s c answer := by
  cases c with
  | send m =>
      intro hi hk m' hm' hlog hbase
      exact h hi hk m' hm' hlog (Nat.lt_of_le_of_lt hle hbase)
  | _ => trivial

/-! ## What is on record -/

/-- Since the start every position that a log gained is on record as committed,
and only what was committed was broadcast. -/
structure Published (N : Network ι) (s₀ : N.Stores)
    (s : N.Stores × List (Event ι Command Command.Answer)) : Prop where
  inv : N.Inv s.1
  grown : ∀ i k, N.headAt s₀ i k ≤ N.headAt s.1 i k
  committed : ∀ i m, Committed N.node s.2 i m →
    m.origin = N.node i ∧ m.headId.toNat ≤ N.headAt s.1 i m.log
  recorded : ∀ i k n, N.headAt s₀ i k < n → n ≤ N.headAt s.1 i k →
    ∃ m, Committed N.node s.2 i m ∧ m.log = k ∧ m.headId.toNat = n
  sent : ∀ i, ∀ m ∈ broadcasts i s.2, Committed N.node s.2 i m

theorem published_start {s₀ : N.Stores} (hs : N.Inv s₀) : N.Published s₀ (s₀, []) where
  inv := hs
  grown := fun _ _ => Nat.le_refl _
  committed := by
    rintro i m ⟨msg, -, hmem⟩
    cases hmem
  recorded := by
    intro i k n hlt hle
    exact absurd hle (Nat.not_le.mpr hlt)
  sent := by
    intro i m hm
    cases hm

theorem eq_of_error {i : ι} {s s' : N.Stores} {op : StoreOp} {e : MsgbusError} (hs : N.Inv s)
    (h : N.ExposedAnswers i s (.store op) (Except.error e) s') : s' = s := by
  obtain ⟨t, hstore, rfl⟩ := h
  rcases storeAnswers_cases (hs i) hstore with ⟨env, result, -, hresult, -⟩ | ⟨-, rfl⟩
  · cases hresult
  · exact Function.update_eq_self i s

section Answers

variable {s₀ s s' : N.Stores} {events : List (Event ι Command Command.Answer)} {i : ι}

omit [DecidableEq ι] [Formats] in
theorem Committed.later {i : ι} {m : StoredMessage} {event : Event ι Command Command.Answer}
    (h : Committed node events i m) : Committed node (event :: events) i m := by
  obtain ⟨msg, horigin, hmem⟩ := h
  exact ⟨msg, horigin, List.mem_cons_of_mem _ hmem⟩

omit [DecidableEq ι] [Formats] in
theorem Committed.cons_cases {i : ι} {m : StoredMessage} {event : Event ι Command Command.Answer}
    (h : Committed node (event :: events) i m) : Committed node events i m ∨
      ∃ msg, event = (i, ⟨.store (.appendMessage msg), Except.ok m⟩) := by
  obtain ⟨msg, horigin, hmem⟩ := h
  rcases List.mem_cons.mp hmem with hnew | hold
  · exact Or.inr ⟨msg, hnew.symm⟩
  · exact Or.inl ⟨msg, horigin, hold⟩

theorem Published.idle (h : N.Published s₀ (s, events)) {event : Event ι Command Command.Answer}
    (hcommit : ∀ j msg m, event ≠ (j, ⟨.store (.appendMessage msg), Except.ok m⟩))
    (hbroadcast : ∀ j, broadcast j event = none) : N.Published s₀ (s, event :: events) where
  inv := h.inv
  grown := h.grown
  committed := by
    intro j m hm
    rcases Committed.cons_cases hm with hold | ⟨msg, hevent⟩
    · exact h.committed j m hold
    · exact absurd hevent (hcommit j msg m)
  recorded := by
    intro j k n hlt hle
    obtain ⟨m, hm, hlog, hposition⟩ := h.recorded j k n hlt hle
    exact ⟨m, Committed.later hm, hlog, hposition⟩
  sent := by
    intro j m hm
    rw [broadcasts_cons, hbroadcast j, Option.toList_none, List.append_nil] at hm
    exact Committed.later (h.sent j m hm)

theorem Published.commit (h : N.Published s₀ (s, events)) {msg : NewMessage}
    (horigin : msg.origin = N.node i) {answer : Command.Answer (.store (.appendMessage msg))}
    {m : StoredMessage} (hok : answer = Except.ok m)
    (hanswer : N.ExposedAnswers i s (.store (.appendMessage msg)) answer s') :
    N.Published s₀ (s', (i, ⟨.store (.appendMessage msg), answer⟩) :: events) := by
  subst hok
  have hle := headAt_le_of_answers h.inv hanswer
  obtain ⟨t, hstore, rfl⟩ := hanswer
  rcases storeAnswers_cases (h.inv i) hstore with ⟨env, r, -, hr, ht, hm, hlogs⟩ | ⟨⟨e, herror⟩, -⟩
  · cases hr
    have hnew : Committed N.node ((i, ⟨.store (.appendMessage msg), Except.ok m⟩) :: events) i m :=
      ⟨msg, horigin, List.mem_cons_self⟩
    have hself : N.view (Function.update s i t) i = (N.view s i).append msg env.now := by
      rw [view_update, Function.update_self]
      exact hlogs
    constructor
    · exact inv_update h.inv ht
    · exact fun j k => Nat.le_trans (h.grown j k) (hle j k)
    · intro j m' hm'
      rcases Committed.cons_cases hm' with hold | ⟨msg', hevent⟩
      · obtain ⟨hnode, hposition⟩ := h.committed j m' hold
        exact ⟨hnode, Nat.le_trans hposition (hle j _)⟩
      · cases hevent
        refine ⟨by rw [hm]; exact horigin, ?_⟩
        change _ ≤ N.headAt (Function.update s i t) i _
        rw [headAt, hself, hm]
        exact Nat.le_of_eq (congrArg UInt64.toNat (Logs.current_append_self msg env.now)).symm
    · intro j k n hlt hn
      by_cases hold : n ≤ N.headAt s j k
      · obtain ⟨m', hm', hlog, hposition⟩ := h.recorded j k n hlt hold
        exact ⟨m', Committed.later hm', hlog, hposition⟩
      · -- the only position gained is the one committed now
        change n ≤ N.headAt (Function.update s i t) j k at hn
        by_cases hj : j = i
        · subst hj
          rw [headAt, hself] at hn
          obtain ⟨hlog, hposition⟩ := Logs.appended_of_current_lt (Nat.not_le.mp hold) hn
          exact ⟨m, hnew, by rw [hm]; exact hlog, by rw [hm]; exact hposition⟩
        · rw [headAt, view_update, Function.update_of_ne hj] at hn
          exact absurd hn hold
    · intro j m' hm'
      have hsame : broadcasts j ((i, ⟨.store (.appendMessage msg), Except.ok m⟩) :: events) =
          broadcasts j events := broadcasts_store i _ _
      exact Committed.later (h.sent j m' (hsame ▸ hm'))
  · cases herror

theorem Published.broadcast (h : N.Published s₀ (s, events)) {m : StoredMessage}
    (hm : Committed N.node events i m) (answer : Command.Answer (.send m)) :
    N.Published s₀ (s, (i, ⟨.send m, answer⟩) :: events) where
  inv := h.inv
  grown := h.grown
  committed := by
    intro j m' hm'
    rcases Committed.cons_cases hm' with hold | ⟨msg, hevent⟩
    · exact h.committed j m' hold
    · cases hevent
  recorded := by
    intro j k n hlt hle
    obtain ⟨m', hm', hlog, hposition⟩ := h.recorded j k n hlt hle
    exact ⟨m', Committed.later hm', hlog, hposition⟩
  sent := by
    intro j m' hm'
    rw [broadcasts_cons] at hm'
    rcases List.mem_append.mp hm' with hold | hnew
    · exact Committed.later (h.sent j m' hold)
    · obtain ⟨_, hevent⟩ := broadcast_eq_some (Option.mem_toList.mp hnew)
      cases hevent
      exact Committed.later hm

theorem Published.sent_le_head (h : N.Published s₀ (s, events)) {topic : Topic} {origin : NodeId}
    {m : StoredMessage} (hm : m ∈ broadcasts i events)
    (hconcerns : m.topic = topic ∧ m.origin = origin) :
    m.headId.toNat ≤ N.headAt s i (LogKey.of topic origin) := by
  obtain ⟨rfl, rfl⟩ := hconcerns
  exact (h.committed i m (h.sent i m hm)).2

end Answers

theorem honours_published (s₀ : N.Stores) :
    N.publishing.traced.Honours (publishContract N.node) (fun s => s.2) (N.Published s₀) := by
  rintro i ⟨s, events⟩ c following answer ⟨s', events'⟩ hs hrequires ⟨hanswer, hevents⟩
  cases hevents
  refine ⟨?_, fun event hevent => List.mem_cons_of_mem _ hevent, List.mem_cons_self⟩
  cases c with
  | newMessageId =>
      cases hanswer.2
      exact hs.idle (fun _ _ _ hevent => by cases hevent) fun _ => rfl
  | send m =>
      cases (show s' = s from hanswer)
      exact hs.broadcast hrequires answer
  | store op =>
      cases op with
      | appendMessage msg =>
          cases hresult : answer with
          | ok m => exact hs.commit hrequires rfl (hresult ▸ hanswer)
          | error e =>
              cases eq_of_error hs.inv (hresult ▸ hanswer)
              exact hs.idle (fun _ _ _ hevent => by cases hevent) fun _ => rfl
      | _ => exact hrequires.elim
  | _ => exact hrequires.elim

theorem meets_publishing {j : ι} {p : Server Unit Unit}
    (w : List (Event ι Command Command.Answer)) (h : N.publishing.Starts j p) :
    (publishContract N.node).Meets j p (fun _ _ => True) w := by
  obtain ⟨request, rfl⟩ := h
  exact (keeps_publish j request w).discard

abbrev Recorded (N : Network ι) (s₀ : N.Stores) :
    State ι (N.Stores × List (Event ι Command Command.Answer)) Command Command.Answer → Prop :=
  Kept (publishContract N.node) (fun s => s.2) (N.Published s₀)

def InOrder (N : Network ι) (i : ι) (topic : Topic) (origin : NodeId) (base : Nat)
    (s : N.Stores × List (Event ι Command Command.Answer)) : Prop :=
  Orderly (fun m => m.topic = topic ∧ m.origin = origin) base
    (N.headAt s.1 i (LogKey.of topic origin)) (broadcasts i s.2)

section Steps

variable {s₀ : N.Stores} {i : ι}
variable {a b : State ι (N.Stores × List (Event ι Command Command.Answer)) Command Command.Answer}

theorem recorded_init (hs : ∀ j, Reachable (s₀ j)) : N.Recorded s₀ (.init (s₀, [])) := by
  refine ⟨published_start fun j => Backend.inv_of_reachable (hs j), ?_⟩
  intro n j p htask
  cases htask

theorem recorded_step (ha : N.Recorded s₀ a) (hstep : N.publishing.traced.Step a b) :
    N.Recorded s₀ b :=
  kept_step (fun _ _ => meets_publishing) (honours_published s₀) ha hstep

theorem headAt_le_of_step (hs : N.Inv a.shared.1) (hstep : N.publishing.traced.Step a b) :
    (∀ k, N.headAt a.shared.1 i k ≤ N.headAt b.shared.1 i k) ∧
      ∃ more, broadcasts i b.shared.2 = broadcasts i a.shared.2 ++ more := by
  cases hstep with
  | start hstart => exact ⟨fun _ => Nat.le_refl _, [], (List.append_nil _).symm⟩
  | answer htask hanswer =>
      refine ⟨headAt_le_of_answers hs hanswer.1 i, ?_⟩
      rw [hanswer.2, broadcasts_cons]
      exact ⟨_, rfl⟩

/-- Broadcasts in commit order keep the channel orderly. -/
theorem InOrder.step {topic : Topic} {origin : NodeId} {base : Nat}
    (h : N.InOrder i topic origin base a.shared) (ha : N.Recorded s₀ a)
    (hbase : N.headAt s₀ i (LogKey.of topic origin) ≤ base)
    (hstep : (N.publishing.traced.restrict
      (N.InCommitOrder i (LogKey.of topic origin) base)).Step a b) :
    N.InOrder i topic origin base b.shared := by
  have hle := (headAt_le_of_step (i := i) ha.1.inv hstep.of_restrict).1 (LogKey.of topic origin)
  cases hstep with
  | start hstart => exact h
  | @answer n j c next answer s' htask hanswer =>
      obtain ⟨horder, -, hevents⟩ := hanswer
      unfold InOrder
      rw [hevents, broadcasts_cons]
      cases hsent : broadcast i (j, ⟨c, answer⟩) with
      | none =>
          rw [Option.toList_none, List.append_nil]
          exact Orderly.mono h hle
      | some m =>
          obtain ⟨_, hevent⟩ := broadcast_eq_some hsent
          cases hevent
          obtain ⟨hnode, hposition⟩ := ha.1.committed i m (ha.requires htask)
          refine (Orderly.mono h hle).broadcast ?_ ?_
          · rintro ⟨rfl, rfl⟩
            exact Nat.le_trans hposition hle
          · rintro ⟨rfl, rfl⟩ n hn hlt
            obtain ⟨m', hm', hlog, rfl⟩ := ha.1.recorded i m.log n (Nat.lt_of_le_of_lt hbase hn)
              (Nat.le_trans (Nat.le_of_lt hlt) hposition)
            have hbefore := horder rfl rfl m' hm' hlog hn (UInt64.lt_iff_toNat_lt.mpr hlt)
            exact ⟨m', hbefore, ⟨congrArg LogKey.topic hlog,
              (ha.1.committed i m' hm').1.trans hnode.symm⟩, rfl⟩

end Steps

/-! ## Delivery without gaps -/

/-- The store of daemon `i` answers the fetch of a stream, and what it returns is
not cut by the limit. -/
def FetchesWhole (N : Network ι) (i : ι) (s : N.Stores) (query : FetchQuery)
    (answer : Except MsgbusError (List StoredMessage)) : Prop :=
  N.Fetches i s query answer ∧ ∀ messages, answer = .ok messages →
    N.headAt s i (LogKey.of query.topic query.origin) <
      query.fromHeadId.toNat + effectiveLimit query.limit

omit [DecidableEq ι] in
theorem FetchesWhole.heads {i : ι} {s : N.Stores} {query : FetchQuery}
    {messages : List StoredMessage} (hs : N.Inv s) (hfirst : 1 ≤ query.fromHeadId.toNat)
    (h : N.FetchesWhole i s query (.ok messages)) :
    messages.map (·.headId.toNat) = List.range' query.fromHeadId.toNat
      (N.headAt s i (LogKey.of query.topic query.origin) + 1 - query.fromHeadId.toNat) := by
  obtain ⟨hfetch, hwhole⟩ := h
  have hlt := hwhole messages rfl
  unfold headAt at hlt
  rw [hfetch.eq_window hs, Logs.map_headId_window (wellFormed_view hs i) hfirst,
    Nat.min_eq_left (by omega)]
  rfl

/-- The stream is without gaps on its log at daemon `i`, since its head was at
`base`. -/
def Follows (N : Network ι) (base : Nat) (i : ι)
    (s : N.Stores × List (Event ι Command Command.Answer)) (t : SubscribeStream) : Prop :=
  t.Gapless base (N.headAt s.1 i t.log) (broadcasts i s.2)

section Follows

variable {s₀ : N.Stores} {base : Nat} {i : ι} {t u : SubscribeStream}
variable {a b : State ι (N.Stores × List (Event ι Command Command.Answer)) Command Command.Answer}

theorem Follows.daemons (h : N.Follows base i a.shared t) (hs : N.Inv a.shared.1)
    (hstep : N.publishing.traced.Step a b) : N.Follows base i b.shared t := by
  obtain ⟨hle, more, hmore⟩ := headAt_le_of_step (i := i) hs hstep
  unfold Follows
  rw [hmore]
  exact h.mono (hle t.log) more

theorem follows_subscribe {events : List (Event ι Command Command.Answer)} {s : N.Stores}
    {query : FetchQuery} (hfirst : 1 ≤ query.fromHeadId.toNat) (h : N.Published s₀ (s, events)) :
    N.Follows (N.headAt s i (LogKey.of query.topic query.origin)) i (s, events)
      (.subscribe query (broadcasts i events)) :=
  SubscribeStream.gapless_subscribe hfirst fun _ hm hconcerns => h.sent_le_head hm hconcerns

theorem Follows.stream (h : N.Follows base i a.shared t) (hwhole : t.Whole base)
    (hs : N.Inv a.shared.1) (hinOrder : N.InOrder i t.query.topic t.query.origin base a.shared)
    (hstep : t.Step (N.FetchesWhole i a.shared.1) (broadcasts i a.shared.2) u) :
    N.Follows base i a.shared u ∧ u.Whole base := by
  have hheads := fun messages (hpage : N.FetchesWhole i a.shared.1 t.query (.ok messages)) =>
    hpage.heads hs h.positive
  have hlength : ∀ messages, N.FetchesWhole i a.shared.1 t.query (.ok messages) →
      messages.length = N.headAt a.shared.1 i t.log + 1 - t.query.fromHeadId.toNat := by
    intro messages hpage
    have hcount := congrArg List.length (hheads messages hpage)
    rw [List.length_map, List.length_range'] at hcount
    exact hcount
  refine ⟨?_, hwhole.step hlength h hstep⟩
  unfold Follows
  rw [hstep.log_eq]
  refine SubscribeStream.Gapless.step hinOrder ?_ ?_ h hstep
  · intro messages hpage
    rw [hlength messages hpage]
    exact hheads messages hpage
  · exact fun m hphase _ _ _ => hwhole.not_passes h hphase m

end Follows

structure Watched (N : Network ι) (s₀ : N.Stores) (i : ι) (query : FetchQuery) (base : Nat)
    (a : State ι (N.Stores × List (Event ι Command Command.Answer)) Command Command.Answer)
    (t : SubscribeStream) : Prop where
  recorded : N.Recorded s₀ a
  query_eq : t.query = query
  inOrder : N.InOrder i query.topic query.origin base a.shared
  follows : N.Follows base i a.shared t
  whole : t.Whole base

section Watched

variable {s₀ : N.Stores} {base : Nat} {i : ι} {query : FetchQuery} {t u : SubscribeStream}
variable {a b : State ι (N.Stores × List (Event ι Command Command.Answer)) Command Command.Answer}

theorem Watched.daemons (h : N.Watched s₀ i query base a t)
    (hbase : N.headAt s₀ i (LogKey.of query.topic query.origin) ≤ base)
    (hstep : (N.publishing.traced.restrict
      (N.InCommitOrder i (LogKey.of query.topic query.origin) base)).Step a b) :
    N.Watched s₀ i query base b t where
  recorded := recorded_step h.recorded hstep.of_restrict
  query_eq := h.query_eq
  inOrder := h.inOrder.step h.recorded hbase hstep
  follows := h.follows.daemons h.recorded.1.inv hstep.of_restrict
  whole := h.whole

theorem Watched.stream (h : N.Watched s₀ i query base a t)
    (hstep : t.Step (N.FetchesWhole i a.shared.1) (broadcasts i a.shared.2) u) :
    N.Watched s₀ i query base a u := by
  obtain ⟨hrecorded, rfl, hinOrder, hfollows, hwhole⟩ := h
  obtain ⟨hfollows', hwhole'⟩ := hfollows.stream hwhole hrecorded.1.inv hinOrder hstep
  exact ⟨hrecorded, hstep.query_eq, hinOrder, hfollows', hwhole'⟩

end Watched

/-- In every run in which the publishes to the log, from when the stream is opened,
broadcast in commit order, a stream whose replay is not cut has delivered every
position from the first one asked for to any it has delivered. -/
theorem delivered_without_gap {s₀ : N.Stores} (hs : ∀ j, Reachable (s₀ j)) {i : ι}
    {request : Pb.SubscribeRequest} {query : FetchQuery}
    (hquery : subscribeQuery (N.node i) request = .ok query)
    {a₀ a : State ι (N.Stores × List (Event ι Command Command.Answer)) Command Command.Answer}
    {t : SubscribeStream} (hbefore : N.publishing.traced.Reaches (.init (s₀, [])) a₀)
    (hrun : Relation.ReflTransGen
      (Watches (N.publishing.traced.restrict
        (N.InCommitOrder i (LogKey.of query.topic query.origin)
          (N.headAt a₀.shared.1 i (LogKey.of query.topic query.origin)))) i (N.FetchesWhole i))
      (a₀, .subscribe query (broadcasts i a₀.shared.2)) (a, t)) :
    ∀ m ∈ t.delivered, ∀ n, max request.fromHeadId 1 ≤ n → n ≤ m.headId →
      ∃ m' ∈ t.delivered, m'.headId = n := by
  have hfrom := subscribeQuery_fromHeadId hquery
  have hfirst : 1 ≤ query.fromHeadId.toNat := by
    rw [hfrom, UInt64.toNat_max]
    exact Nat.le_max_right _ _
  have hrecorded : N.Recorded s₀ a₀ :=
    hbefore.invariant (recorded_init hs) fun _ _ => recorded_step
  have hwatched : N.Watched s₀ i query
      (N.headAt a₀.shared.1 i (LogKey.of query.topic query.origin)) a t := by
    refine watches_invariant hrun
      ⟨hrecorded, rfl, .of_le fun _ hm => hrecorded.1.sent_le_head hm,
        follows_subscribe hfirst hrecorded.1, SubscribeStream.whole_subscribe _ _⟩ ?_ ?_
    · exact fun _ _ _ h hstep => h.daemons (hrecorded.1.grown i _) hstep
    · exact fun _ _ _ h hstep => h.stream hstep
  have hheads := hwatched.follows.delivered_heads
  rw [hwatched.query_eq] at hheads
  intro m hm n hle hn
  rw [← hfrom, UInt64.le_iff_toNat_le] at hle
  rw [UInt64.le_iff_toNat_le] at hn
  have hposition := List.mem_map_of_mem (f := fun m : StoredMessage => m.headId.toNat) hm
  rw [hheads, List.mem_range'_1] at hposition
  have hmem : n.toNat ∈ t.delivered.map (·.headId.toNat) := by
    rw [hheads, List.mem_range'_1]
    omega
  obtain ⟨m', hm', hid⟩ := List.mem_map.mp hmem
  exact ⟨m', hm', UInt64.toNat_inj.mp hid⟩

/-! ## Two publishes -/

def sending (m : StoredMessage) : Server Unit Unit := .call (.send m) fun _ => .ret ()

omit [DecidableEq ι] [Formats] in
theorem publish_calls {node : NodeId} {request : Pb.PublishRequest} {topic : Topic}
    (htarget : writeTarget node request.topic request.origin = .ok (topic, node)) :
    ∃ next : MessageId → Except MsgbusError StoredMessage → Server Unit Unit,
      (publish node request).discard = .call .newMessageId (fun id : MessageId =>
        .call (.store (.appendMessage ⟨id, topic, node, request.payload, request.headers⟩))
          (next id)) ∧
      ∀ id m, next id (.ok m) = sending m := by
  refine ⟨fun id answer => (((ofExcept answer).mapError statusFromError).bind
    fun stored : StoredMessage => (send stored).bind fun _ => .ret (protoMessage stored)).discard,
    ?_, fun _ _ => rfl⟩
  unfold publish
  rw [htarget]
  rfl

theorem exists_append_filled {s : solo.Stores} (hs : ∀ j, Reachable (s j)) {n : Nat}
    (hlogs : solo.view s () = filled n) :
    ∃ s' : solo.Stores, (∀ j, Reachable (s' j)) ∧ solo.view s' () = filled (n + 1) ∧
      solo.ExposedAnswers () s (.store (.appendMessage entry)) (Except.ok (nextEntry n)) s' := by
  have hid : ValidPart (CallEnv.id ⟨0, 0, ⟨"m"⟩⟩).value := by decide
  have hop : (StoreOp.appendMessage entry).onLogs = true := rfl
  obtain ⟨m, t, happend, ht, rfl, hafter⟩ := exists_storeAnswers (hs ()) hid hop trivial rfl
  rw [show (solo.storage ()).logs (s ()) = filled n from hlogs] at happend hafter
  exact ⟨fun _ => t, fun _ => ht, hafter, t, happend, rfl⟩

theorem exists_two_committed
    {Cond : Unit → solo.Stores × List (Event Unit Command Command.Answer) → (c : Command) →
      c.Answer → Prop}
    (hcond : ∀ i s c answer, (∀ m, c ≠ .send m) → Cond i s c answer) :
    ∃ (s : solo.Stores) (events : List (Event Unit Command Command.Answer)),
      (solo.publishing.traced.restrict Cond).Reaches (.init (solo.fresh, []))
        ⟨(s, events), [((), sending (nextEntry 0)), ((), sending (nextEntry 1))]⟩ ∧
      broadcasts () events = [] ∧
      (∀ m, Committed solo.node events () m → m = nextEntry 0 ∨ m = nextEntry 1) ∧
      (∀ j, Reachable (s j)) ∧ solo.view s () = filled 2 := by
  have hfresh : ∀ j, Reachable (solo.fresh j) := fun _ => .empty
  have hempty : solo.view solo.fresh () = filled 0 := congrFun view_fresh ()
  obtain ⟨s₁, hs₁, hlogs₁, happend₁⟩ := exists_append_filled hfresh hempty
  obtain ⟨s₂, hs₂, hlogs₂, happend₂⟩ := exists_append_filled hs₁ hlogs₁
  have htarget : writeTarget (solo.node ()) "t" none = .ok (⟨"t"⟩, solo.node ()) :=
    writeTarget_self (solo.node ()) (by decide) (by decide)
  obtain ⟨next, hpublish, hnext⟩ :=
    @publish_calls (solo.node ()) ⟨"t", none, .empty, .empty⟩ ⟨"t"⟩ htarget
  let sys := solo.publishing.traced.restrict Cond
  let started : Server Unit Unit := .call .newMessageId fun id : MessageId =>
    .call (.store (.appendMessage ⟨id, ⟨"t"⟩, solo.node (), .empty, .empty⟩)) (next id)
  let drawn : Server Unit Unit := .call (.store (.appendMessage entry)) (next ⟨"m"⟩)
  let idEvent : Event Unit Command Command.Answer := ((), ⟨.newMessageId, (⟨"m"⟩ : MessageId)⟩)
  let appendEvent (m : StoredMessage) : Event Unit Command Command.Answer :=
    ((), ⟨.store (.appendMessage entry), Except.ok m⟩)
  let events₁ := [appendEvent (nextEntry 0), idEvent, idEvent]
  have hstart : ∀ x tasks, sys.Step ⟨x, tasks⟩ ⟨x, tasks ++ [((), started)]⟩ :=
    fun x tasks => .start ⟨_, hpublish.symm⟩
  have hid : ∀ events, sys.Answers () (solo.fresh, events) .newMessageId (⟨"m"⟩ : MessageId)
      (solo.fresh, idEvent :: events) :=
    fun events => ⟨hcond _ _ _ _ (fun _ h => by cases h), ⟨by decide, rfl⟩, rfl⟩
  have hfirstAnswer : sys.Answers () (solo.fresh, [idEvent, idEvent])
      (.store (.appendMessage entry)) (Except.ok (nextEntry 0)) (s₁, events₁) :=
    ⟨hcond _ _ _ _ (fun _ h => by cases h), happend₁, rfl⟩
  have hsecondAnswer : sys.Answers () (s₁, events₁) (.store (.appendMessage entry))
      (Except.ok (nextEntry 1)) (s₂, appendEvent (nextEntry 1) :: events₁) :=
    ⟨hcond _ _ _ _ (fun _ h => by cases h), happend₂, rfl⟩
  have hfirstId : sys.Step ⟨(solo.fresh, []), [((), started), ((), started)]⟩
      ⟨(solo.fresh, [idEvent]), [((), drawn), ((), started)]⟩ := .of_answer 0 (hid []) rfl rfl
  have hsecondId : sys.Step ⟨(solo.fresh, [idEvent]), [((), drawn), ((), started)]⟩
      ⟨(solo.fresh, [idEvent, idEvent]), [((), drawn), ((), drawn)]⟩ :=
    .of_answer 1 (hid [idEvent]) rfl rfl
  have hfirst : sys.Step ⟨(solo.fresh, [idEvent, idEvent]), [((), drawn), ((), drawn)]⟩
      ⟨(s₁, events₁), [((), next ⟨"m"⟩ (.ok (nextEntry 0))), ((), drawn)]⟩ :=
    .of_answer 0 hfirstAnswer rfl rfl
  have hsecond : sys.Step ⟨(s₁, events₁), [((), next ⟨"m"⟩ (.ok (nextEntry 0))), ((), drawn)]⟩
      ⟨(s₂, appendEvent (nextEntry 1) :: events₁),
        [((), next ⟨"m"⟩ (.ok (nextEntry 0))), ((), next ⟨"m"⟩ (.ok (nextEntry 1)))]⟩ :=
    .of_answer 1 hsecondAnswer rfl rfl
  have hrun := ((((Relation.ReflTransGen.single (hstart (solo.fresh, []) [])).tail
    (hstart _ _)).tail hfirstId).tail hsecondId).tail hfirst |>.tail hsecond
  rw [hnext, hnext] at hrun
  refine ⟨s₂, _, hrun, rfl, ?_, hs₂, hlogs₂⟩
  rintro m ⟨msg, -, hmem⟩
  rcases List.mem_cons.mp hmem with hevent | hmem
  · cases hevent
    exact Or.inr rfl
  · rcases List.mem_cons.mp hmem with hevent | hmem
    · cases hevent
      exact Or.inl rfl
    · rcases List.mem_pair.mp hmem with hevent | hevent
      · cases congrArg (fun event => event.2.1) hevent
      · cases congrArg (fun event => event.2.1) hevent

theorem fetchesWhole_fresh :
    solo.FetchesWhole () solo.fresh ⟨⟨"t"⟩, solo.node (), 1, 100⟩ (.ok []) := by
  have hfresh : ∀ j, Reachable (solo.fresh j) := fun _ => .empty
  have hempty : solo.view solo.fresh () = Logs.empty := congrFun view_fresh ()
  have hfetch := fetches_solo hfresh ⟨⟨"t"⟩, solo.node (), 1, 100⟩
  rw [hempty] at hfetch
  refine ⟨hfetch, fun _ _ => ?_⟩
  rw [headAt, hempty]
  decide

/-- A stream on the empty log whose replay is over. -/
def openedEmpty : SubscribeStream :=
  { SubscribeStream.subscribe ⟨⟨"t"⟩, solo.node (), 1, 100⟩ [] with phase := .forwarding [] }

theorem exists_two_committed_opened
    {Cond : Unit → solo.Stores × List (Event Unit Command Command.Answer) → (c : Command) →
      c.Answer → Prop}
    (hcond : ∀ i s c answer, (∀ m, c ≠ .send m) → Cond i s c answer) :
    ∃ (s : solo.Stores) (events : List (Event Unit Command Command.Answer)),
      Relation.ReflTransGen
        (Watches (solo.publishing.traced.restrict Cond) () (solo.FetchesWhole ()))
        (.init (solo.fresh, []), .subscribe ⟨⟨"t"⟩, solo.node (), 1, 100⟩ [])
        (⟨(s, events), [((), sending (nextEntry 0)), ((), sending (nextEntry 1))]⟩, openedEmpty) ∧
      broadcasts () events = [] ∧
      (∀ m, Committed solo.node events () m → m = nextEntry 0 ∨ m = nextEntry 1) ∧
      (∀ j, Reachable (s j)) ∧ solo.view s () = filled 2 := by
  obtain ⟨s, events, hcommitted, hrest⟩ := exists_two_committed hcond
  have hfetched : Watches (solo.publishing.traced.restrict Cond) () (solo.FetchesWhole ())
      (.init (solo.fresh, []), .subscribe ⟨⟨"t"⟩, solo.node (), 1, 100⟩ [])
      (.init (solo.fresh, []), openedEmpty) := .stream (.fetched rfl fetchesWhole_fresh)
  exact ⟨s, events, .head hfetched (watches_of_reaches hcommitted openedEmpty), hrest⟩

theorem watches_sent {Cond : Unit → solo.Stores × List (Event Unit Command Command.Answer) →
      (c : Command) → c.Answer → Prop} {s : solo.Stores}
    {events : List (Event Unit Command Command.Answer)}
    {t : SubscribeStream} {m : StoredMessage} (tasks : List (Unit × Server Unit Unit)) (n : Nat)
    (htask : tasks[n]? = some ((), sending m)) (hcond : Cond () (s, events) (.send m) ())
    (hphase : t.phase = .forwarding []) (hcursor : t.cursor = (broadcasts () events).length) :
    Relation.ReflTransGen
      (Watches (solo.publishing.traced.restrict Cond) () (solo.FetchesWhole ()))
      (⟨(s, events), tasks⟩, t)
      (⟨(s, ((), ⟨.send m, ()⟩) :: events), tasks.set n ((), .ret ())⟩, t.received m) := by
  have hanswer : (solo.publishing.traced.restrict Cond).Answers () (s, events) (.send m) ()
      (s, ((), ⟨.send m, ()⟩) :: events) := ⟨hcond, rfl, rfl⟩
  have hsent : (solo.publishing.traced.restrict Cond).Step ⟨(s, events), tasks⟩
      ⟨(s, ((), ⟨.send m, ()⟩) :: events), tasks.set n ((), .ret ())⟩ :=
    .of_answer n hanswer htask rfl
  have hchannel : broadcasts () (((), ⟨.send m, ()⟩) :: events) = broadcasts () events ++ [m] :=
    broadcasts_send m ()
  refine (Relation.ReflTransGen.single (.daemons hsent)).tail (.stream ?_)
  change t.Step _ (broadcasts () (((), ⟨.send m, ()⟩) :: events)) _
  rw [hchannel]
  exact SubscribeStream.step_last hphase hcursor

omit [Formats] in
theorem inCommitOrder_first {k : LogKey} {base : Nat} {s : solo.Stores}
    {events : List (Event Unit Command Command.Answer)} :
    solo.InCommitOrder () k base () (s, events) (.send (nextEntry 0)) () := by
  intro _ _ m' _ _ hbase hlt
  rw [UInt64.lt_iff_toNat_lt, nextEntry_headId (by omega)] at hlt
  omega

omit [Formats] in
theorem inCommitOrder_second {k : LogKey} {base : Nat} {s : solo.Stores}
    {events : List (Event Unit Command Command.Answer)}
    (honly : ∀ m, Committed solo.node events () m → m = nextEntry 0 ∨ m = nextEntry 1) :
    solo.InCommitOrder () k base () (s, ((), ⟨.send (nextEntry 0), ()⟩) :: events)
      (.send (nextEntry 1)) () := by
  intro _ _ m' hm' _ _ hlt
  rcases Committed.cons_cases hm' with hold | ⟨msg, hevent⟩
  · rcases honly m' hold with rfl | rfl
    · have hsent : broadcasts () (((), ⟨.send (nextEntry 0), ()⟩) :: events) =
          broadcasts () events ++ [nextEntry 0] := broadcasts_send _ _
      change _ ∈ broadcasts () (((), ⟨.send (nextEntry 0), ()⟩) :: events)
      rw [hsent]
      exact List.mem_append_right _ (List.mem_singleton_self _)
    · exact absurd hlt (UInt64.lt_irrefl _)
  · cases hevent

omit [DecidableEq ι] [Formats] in
/-- Two publishes commit while a stream is open and broadcast in the same order: the
stream delivers both. -/
theorem delivered_without_gap_two : letI := Serde.formats
    ∃ (a : State Unit (solo.Stores × List (Event Unit Command Command.Answer)) Command
        Command.Answer) (t : SubscribeStream) (m : StoredMessage),
      Relation.ReflTransGen
        (Watches (solo.publishing.traced.restrict
          (solo.InCommitOrder () (LogKey.of ⟨"t"⟩ (solo.node ()))
            (solo.headAt solo.fresh () (LogKey.of ⟨"t"⟩ (solo.node ()))))) () (solo.FetchesWhole ()))
        (.init (solo.fresh, []), .subscribe ⟨⟨"t"⟩, solo.node (), 1, 100⟩ []) (a, t) ∧
      broadcasts () a.shared.2 = t.delivered ∧ m ∈ t.delivered ∧ m.headId = 2 ∧
      ∃ m' ∈ t.delivered, m'.headId = 1 := by
  let := Serde.formats
  let base := solo.headAt solo.fresh () (LogKey.of ⟨"t"⟩ (solo.node ()))
  let Cond := solo.InCommitOrder () (LogKey.of ⟨"t"⟩ (solo.node ())) base
  have hcond : ∀ i s c answer, (∀ m, c ≠ .send m) → Cond i s c answer := by
    intro i s c answer hother
    cases c with
    | send m => exact absurd rfl (hother m)
    | _ => trivial
  obtain ⟨s, events, hcommitted, hnone, honly, -, -⟩ := exists_two_committed_opened hcond
  have hone : (nextEntry 0).headId.toNat = 1 := nextEntry_headId (by omega)
  have htwo : (nextEntry 1).headId.toNat = 2 := nextEntry_headId (by omega)
  have hchannel : broadcasts () (((), ⟨.send (nextEntry 0), ()⟩) :: events) = [nextEntry 0] :=
    (broadcasts_send _ _).trans (congrArg (· ++ [nextEntry 0]) hnone)
  let t : SubscribeStream := { openedEmpty with
    cursor := 1, lastSent := (nextEntry 0).headId, delivered := [nextEntry 0] }
  have hread₁ : openedEmpty.received (nextEntry 0) = t := by
    refine openedEmpty.received_of_wanted ⟨⟨rfl, rfl⟩, ?_⟩
    rw [UInt64.lt_iff_toNat_lt, hone]
    decide
  have hread₂ : t.received (nextEntry 1) = { t with
      cursor := 2, lastSent := (nextEntry 1).headId, delivered := [nextEntry 0, nextEntry 1] } := by
    refine t.received_of_wanted ⟨⟨rfl, rfl⟩, ?_⟩
    rw [UInt64.lt_iff_toNat_lt, htwo]
    change (nextEntry 0).headId.toNat < 2
    omega
  have hsent₁ := watches_sent (t := openedEmpty)
    [((), sending (nextEntry 0)), ((), sending (nextEntry 1))] 0 rfl
    (show Cond () (s, events) _ _ from inCommitOrder_first) rfl (by rw [hnone]; rfl)
  rw [hread₁] at hsent₁
  have hsent₂ := watches_sent (t := t) [((), .ret ()), ((), sending (nextEntry 1))] 1 rfl
    (show Cond () (s, _) _ _ from inCommitOrder_second honly) rfl (by rw [hchannel]; rfl)
  rw [hread₂] at hsent₂
  have hrun := hcommitted.trans (hsent₁.trans hsent₂)
  have hfresh : ∀ j, Reachable (solo.fresh j) := fun _ => .empty
  have hvalid : ValidPart "t" := by decide
  have hmem : nextEntry 1 ∈ [nextEntry 0, nextEntry 1] :=
    List.mem_cons_of_mem _ (List.mem_singleton_self _)
  refine ⟨_, _, nextEntry 1, hrun, ?_, hmem, UInt64.toNat_inj.mp htwo, ?_⟩
  · exact (broadcasts_send _ _).trans (congrArg (· ++ [nextEntry 1]) hchannel)
  · refine delivered_without_gap hfresh (subscribeQuery_self (solo.node ()) hvalid 1 100) .refl hrun _
      hmem 1 (by decide) ?_
    rw [UInt64.le_iff_toNat_le, htwo]
    decide

omit [DecidableEq ι] [Formats] in
/-- Two publishes commit in one order and broadcast in the other: the stream has
read both broadcasts and delivers only the second message. -/
theorem overtaken_message_lost : letI := Serde.formats
    ∃ (a : State Unit (solo.Stores × List (Event Unit Command Command.Answer)) Command
        Command.Answer) (t : SubscribeStream) (m : StoredMessage),
      Relation.ReflTransGen (Watches solo.publishing.traced () (solo.FetchesWhole ()))
        (.init (solo.fresh, []), .subscribe ⟨⟨"t"⟩, solo.node (), 1, 100⟩ []) (a, t) ∧
      (∀ task ∈ a.tasks, task.2.first = none) ∧
      t.phase = .forwarding [] ∧ t.cursor = (broadcasts () a.shared.2).length ∧
      ((solo.view a.shared.1 ()).message entryLog 1).isSome ∧
      t.delivered = [m] ∧ m.headId = 2 := by
  let := Serde.formats
  let Cond : Unit → solo.Stores × List (Event Unit Command Command.Answer) → (c : Command) →
    c.Answer → Prop := fun _ _ _ _ => True
  have hcond : ∀ i s c answer, (∀ m, c ≠ .send m) → Cond i s c answer := fun _ _ _ _ _ => trivial
  obtain ⟨s, events, hcommitted, hnone, -, hs, hlogs⟩ := exists_two_committed_opened hcond
  have hone : (nextEntry 0).headId.toNat = 1 := nextEntry_headId (by omega)
  have htwo : (nextEntry 1).headId.toNat = 2 := nextEntry_headId (by omega)
  let events₁ : List (Event Unit Command Command.Answer) :=
    ((), ⟨.send (nextEntry 1), ()⟩) :: events
  have hchannel₁ : broadcasts () events₁ = [nextEntry 1] :=
    (broadcasts_send _ _).trans (congrArg (· ++ [nextEntry 1]) hnone)
  have hchannel₂ : broadcasts () (((), ⟨.send (nextEntry 0), ()⟩) :: events₁) =
      [nextEntry 1, nextEntry 0] :=
    (broadcasts_send _ _).trans (congrArg (· ++ [nextEntry 0]) hchannel₁)
  -- the stream: nothing to replay, then the second message, then the first
  let t : SubscribeStream := { openedEmpty with
    cursor := 1, lastSent := (nextEntry 1).headId, delivered := [nextEntry 1] }
  have hread₁ : openedEmpty.received (nextEntry 1) = t := by
    refine openedEmpty.received_of_wanted ⟨⟨rfl, rfl⟩, ?_⟩
    rw [UInt64.lt_iff_toNat_lt, htwo]
    decide
  have hread₂ : t.received (nextEntry 0) = { t with cursor := 2 } := by
    refine t.received_of_not_wanted ?_
    rintro ⟨-, hbeyond⟩
    rw [UInt64.lt_iff_toNat_lt, hone] at hbeyond
    change (nextEntry 1).headId.toNat < 1 at hbeyond
    omega
  have hfree : ∀ events m, Cond () (s, events) (.send m) () := fun _ _ => trivial
  have hsent₁ := watches_sent (t := openedEmpty)
    [((), sending (nextEntry 0)), ((), sending (nextEntry 1))] 1 rfl (hfree events _) rfl
    (by rw [hnone]; rfl)
  rw [hread₁] at hsent₁
  have hsent₂ := watches_sent (t := t) [((), sending (nextEntry 0)), ((), .ret ())] 0 rfl
    (hfree events₁ _) rfl (by rw [hchannel₁]; rfl)
  rw [hread₂] at hsent₂
  have hrun := hcommitted.trans (hsent₁.trans hsent₂)
  refine ⟨_, _, nextEntry 1, watches_of_restrict hrun, ?_, rfl, ?_, ?_, rfl,
    UInt64.toNat_inj.mp htwo⟩
  · intro task htask
    rcases List.mem_pair.mp htask with rfl | rfl
    · rfl
    · rfl
  · rw [hchannel₂]
    rfl
  · have hwf : (solo.view s ()).WellFormed := Backend.wellFormed (Backend.inv_of_reachable (hs ()))
    refine (hwf.contiguous entryLog 1).mpr ⟨by decide, ?_⟩
    rw [hlogs, current_filled 2 (by omega)]
    decide

end Network

end Msgbus

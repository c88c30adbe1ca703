import Msgbus.Network.Agreement
import Msgbus.Network.CatchUp
import Msgbus.Server.Loop

/-!
# Passes complete

In a network of honest daemons with distinct keys nothing that a daemon stores
can block a pass: from every state that a run reaches, a pass whose calls are all
answered returns `Ok` and leaves the daemon caught up with each of its peers.
-/

namespace Msgbus

open Program

variable [Formats]

/-! ## Honest logs -/

structure StoredMessage.Honest (m : StoredMessage) : Prop where
  topic : ValidPart m.topic.value
  id : ValidPart m.id.value
  origin : m.origin.Valid
  marker : m.topic = deleteTopic → ∃ topic first last env, first ≤ last ∧
    m.payload = (Logs.marker topic m.origin first last deleteTopic m.origin env).payload

theorem Logs.honest_of_messages {b : Logs} (h : ∀ k n m, b.message k n = some m → m.Honest) :
    b.Honest where
  topic := fun k n m hm => (h k n m hm).topic
  id := fun k n m hm => (h k n m hm).id
  origin := fun k n m hm => Or.inl (h k n m hm).origin
  marker := fun k n m hm => (h k n m hm).marker

theorem StoredMessage.Honest.keeps {m m' : StoredMessage} (h : m.Honest) (hkeep : m.Keeps m') :
    m'.Honest := by
  rw [hkeep.1]
  exact ⟨h.topic, h.id, h.origin, h.marker⟩

def honestKnowledge {ι : Type} (node : ι → NodeId) : Knowledge ι Unit where
  node := node
  Later := fun _ _ => True
  refl := fun _ => trivial
  trans := fun _ _ => trivial
  Known := fun _ m => m.Honest
  known_later := fun _ h => h
  Listed := fun _ _ => True
  listed_later := fun _ _ => trivial
  Wanted := fun _ _ _ => True
  Held := fun _ _ _ => True
  held_later := fun _ _ => trivial
  held_of_known := fun _ _ => trivial
  Sent := fun _ _ _ => True
  sent_later := fun _ _ => trivial

theorem honest_of_step {ι : Type} {node : ι → NodeId} {i : ι} (hnode : (node i).Valid)
    {env : CallEnv} (hid : ValidPart env.id.value) {op : StoreOp} {result : op.Result} {b b' : Logs}
    (hb : ∀ k n m, b.message k n = some m → m.Honest)
    (hallows : (honestKnowledge node).Allows i () (.store op))
    (hstep : Logs.Step env op result b b') {k : LogKey} {n : HeadId} {m : StoredMessage}
    (hm : b'.message k n = some m) : m.Honest := by
  rcases Logs.step_message_cases hstep hm with ⟨old, hold, hkeep⟩ | ⟨msg, rfl, rfl⟩ |
    ⟨msg, rfl, rfl⟩ | ⟨topic, origin, first, last, markerTopic, markerOrigin, rfl, rfl⟩
  · exact (hb k n old hold).keeps hkeep
  · have hmsg : msg.Honest := hallows.1
    exact ⟨hmsg.topic, hmsg.id, hmsg.origin, hmsg.marker⟩
  · obtain ⟨horigin, hne, htopic, hid'⟩ := hallows
    refine ⟨htopic, hid', ?_, fun hdelete => absurd hdelete hne⟩
    change msg.origin.Valid
    rw [horigin]
    exact hnode
  · obtain ⟨rfl, -, rfl, rfl⟩ := hallows
    have htopic : ValidPart deleteTopic.value := by decide
    exact ⟨htopic, hid, hnode, fun _ => ⟨topic, first, last, env, hstep.1, rfl⟩⟩

namespace Network

open System

variable {ι : Type} [DecidableEq ι] {N : Network ι} {i j : ι} {s : N.Stores}
variable {Cond : ι → N.Stores → (c : Command) → c.Answer → Prop}
variable {a : State ι N.Stores Command Command.Answer}

def AllHonest (N : Network ι) (s : N.Stores) : Prop :=
  N.Inv s ∧ ∀ i k n m, (N.view s i).message k n = some m → m.Honest

theorem honours_honest :
    N.system.Honours (honestKnowledge N.node).contract (fun _ => ()) N.AllHonest := by
  apply Knowledge.honours_of_calls
  · rintro i s op answer s' ⟨hinv, hs⟩ hallows ⟨t, hstore, rfl⟩
    refine ⟨?_, trivial, ?_⟩
    · rcases storeAnswers_cases (hinv i) hstore with ⟨env, result, hid, -, ht, hstep⟩ | ⟨-, rfl⟩
      · refine ⟨inv_update hinv ht, ?_⟩
        rw [view_update]
        refine (Function.forall_update_iff (N.view s) fun _ b => ∀ k n m,
          b.message k n = some m → m.Honest).mpr ⟨?_, fun x _ => hs x⟩
        exact fun k n m hm => honest_of_step (N.valid i) hid (hs i) hallows hstep hm
      · rw [Function.update_eq_self]
        exact ⟨hinv, hs⟩
    · cases op with
      | fetchMessages query => exact fun _ _ _ _ => trivial
      | appendMessage msg => exact fun _ _ => trivial
      | getHead topic origin => exact fun _ _ _ _ _ _ _ => trivial
      | putReplicatedMessage m => exact fun _ => trivial
      | tombstoneRangeWithMarker topic origin first last markerTopic markerOrigin =>
          exact fun _ _ => trivial
      | _ => trivial
  · intro i s c answer s' hs hc hanswer
    cases answers_eq_of_ne_store hanswer hc
    exact ⟨hs, trivial⟩
  · intro i s id s' hanswer
    exact hanswer.1
  · exact fun _ _ _ _ _ _ _ _ _ _ _ => trivial
  · rintro i s endpoint request items last s' hs ⟨rfl, hserves⟩ item hitem envelope m henvelope hm
    obtain ⟨j, all, -, hserve, hstream, -⟩ := hserves items last rfl
    exact hs.2 j _ _ m
      (message_of_serves_fetch (hs.1 j) hserve (hstream.mem hitem) henvelope hm)

theorem honest_of_reaches (hrun : (N.system.restrict Cond).Reaches (.init N.fresh) a) :
    N.AllHonest a.shared := by
  refine (System.kept_of_reaches (fun _ _ w hstarts => meets_of_starts rfl hstarts w)
    (honours_honest.restrict Cond) ⟨inv_fresh, ?_⟩ hrun).1
  intro i k n m hm
  rw [view_fresh] at hm
  cases hm

theorem reachable_of_reaches (hrun : (N.system.restrict Cond).Reaches (.init N.fresh) a) (x : ι) :
    Reachable (a.shared x) := by
  refine Reaches.invariant (P := fun (a : State ι N.Stores Command Command.Answer) =>
    ∀ x, Reachable (a.shared x)) hrun (fun _ => .empty) ?_ x
  intro a b ha hstep
  cases hstep with
  | start hstart => exact ha
  | @answer n i c next answer s' htask hanswer =>
      by_cases hstore : ∃ op, c = .store op
      · obtain ⟨op, rfl⟩ := hstore
        obtain ⟨-, t, hstored, rfl⟩ := hanswer
        refine (Function.forall_update_iff a.shared fun x (t : (N.storage x).Store) =>
          Reachable t).mpr ⟨?_, fun x _ => ha x⟩
        rcases hstored with ⟨env, -, -, rfl⟩ | ⟨message, -, rfl⟩
        · exact (ha i).call env op
        · exact ha i
      · cases answers_eq_of_ne_store hanswer.2 fun op hc => hstore ⟨op, hc⟩
        exact ha

/-! ## Logs of one origin -/

/-- A log holds messages of one origin, and it is a valid one. -/
def Uniform (b : Logs) : Prop :=
  ∀ head, b.IsHead head → head.origin.Valid ∧
    ∀ n m, b.message (LogKey.of head.topic head.origin) n = some m → m.origin = head.origin

omit [DecidableEq ι] in
theorem Agrees.uniform (hdistinct : N.Distinct) (hs : N.Agrees s) (j : ι) :
    Uniform (N.view s j) := by
  intro head hhead
  obtain ⟨owner, howner, -⟩ := listed_of_isHead hs hhead
  refine ⟨by rw [howner]; exact N.valid owner, ?_⟩
  intro n m hm
  have hlog := ((wellFormed_view hs.1 j).positioned _ n m hm).2
  have hkey : m.log.origin = (N.node owner).key := by
    rw [hlog, howner]
    rfl
  rw [((hs.2.1.vouched j _ n m hm).at_owner hdistinct hkey).1, howner]

omit [DecidableEq ι] in
/-- What a daemon holds of an owner's log, the owner holds, with its flag at
least. -/
theorem Agrees.message_at_owner (hdistinct : N.Distinct) (hs : N.Agrees s)
    {topic : Topic} {n : HeadId} {m : StoredMessage}
    (hm : (N.view s j).message (LogKey.of topic (N.node i)) n = some m) :
    ∃ m', (N.view s i).message (LogKey.of topic (N.node i)) n = some m' ∧ m.Keeps m' := by
  obtain ⟨hpos, hlog⟩ := (wellFormed_view hs.1 j).positioned _ n m hm
  obtain ⟨-, m', hm', hkeep⟩ := (hs.2.1.vouched j _ n m hm).at_owner hdistinct
    (show m.log.origin = (N.node i).key by rw [hlog]; rfl)
  rw [hlog, hpos] at hm'
  exact ⟨m', hm', hkeep⟩

omit [DecidableEq ι] [Formats] in
theorem Uniform.replicable {b : Logs} (h : Uniform b) (mine : Logs) {head : TopicHead}
    (hhead : b.IsHead head) : Logs.Replicable mine b head :=
  fun _ => ⟨(h head hhead).1.isEmpty_eq, fun n m _ hm => (h head hhead).2 n m hm⟩

/-! ## One peer -/

end Network

/-- Everything is answered: the peer is there and its streams are received to
their ends, and the store carries out its calls. -/
def Command.Responds : (c : Command) → c.Answer → Prop
  | connect _, answer => answer = Except.ok ()
  | health _, answer => ∃ response, answer = Except.ok response
  | listHeads _, answer => ∃ heads, answer = Except.ok heads
  | store _, answer => ∃ result, answer = Except.ok result
  | fetch _ _, answer => ∃ items, answer = Except.ok (items, none)
  | _, _ => True

omit [Formats] in
theorem Command.Responds.completes {c : Command} {answer : c.Answer} (h : c.Responds answer) :
    c.Completes answer := by
  cases c with
  | store op => exact h
  | fetch endpoint request => exact h
  | _ => trivial

omit [Formats] in
theorem Command.Completes.succeeds {c : Command} {answer : c.Answer} (h : c.Completes answer) :
    c.Succeeds answer := by
  cases c with
  | store op => exact h
  | _ => trivial

namespace Network

open System

variable {ι : Type} [DecidableEq ι] {N : Network ι} {i j : ι} {s : N.Stores} {spec : PeerSpec}

def responsive (N : Network ι) : System ι N.Stores Command Command.Answer :=
  N.system.restrict fun _ _ c answer => c.Responds answer

theorem smooth_of_responsive (s : N.Stores) (c : Command) (answer : c.Answer) (s' : N.Stores)
    (h : N.responsive.Answers i s c answer s') : N.smooth.Answers i s c answer s' :=
  ⟨h.1.completes, h.2⟩

def AsksPeers (N : Network ι) (i : ι) (s : N.Stores) : Command → Prop
  | .connect _ => True
  | .health endpoint => ∃ j, N.resolve endpoint = some j
  | .listHeads endpoint => ∃ j, N.resolve endpoint = some j
  | c => N.Asks i s c

omit [DecidableEq ι] in
theorem asksPeers_of_asks (s : N.Stores) (c : Command) (h : N.Asks i s c) : N.AsksPeers i s c := by
  cases c with
  | connect endpoint => trivial
  | health endpoint => exact absurd h id
  | listHeads endpoint => exact absurd h id
  | _ => exact h

/-- The peer is another daemon, and is the one that is expected. -/
def Peers (N : Network ι) (i j : ι) (spec : PeerSpec) : Prop :=
  N.resolve spec.endpoint = some j ∧ N.node j ≠ N.node i ∧
    ∀ expected, spec.expectedNode = some expected → expected = N.node j

theorem Peers.performs_verifyPeerIdentity (h : N.Peers i j spec) :
    Performs (N.responsive.Answers i) (N.AsksPeers i) (verifyPeerIdentity (N.node i) spec)
      (fun out s' => out = .ok () ∧ s' = s) s := by
  obtain ⟨hresolve, hother, hexpected⟩ := h
  refine ⟨⟨j, hresolve⟩, ?_⟩
  rintro answer s' ⟨⟨response, rfl⟩, rfl, hserved⟩
  obtain ⟨j', hj', rfl⟩ := hserved response rfl
  rw [hresolve] at hj'
  cases hj'
  change Performs _ _ (ofExcept ((coreNode (protoNode (N.node j))).mapError Formats.statusText) >>= _)
    _ _
  rw [coreNode_protoNode (Or.inl (N.valid j))]
  change Performs _ _ (if N.node j = N.node i then _ else _) _ _
  rw [if_neg hother]
  cases hspec : spec.expectedNode with
  | none => exact ⟨rfl, rfl⟩
  | some expected =>
      dsimp only
      rw [if_neg (not_not.mpr (hexpected expected hspec).symm)]
      exact ⟨rfl, rfl⟩

theorem performs_callListHeads {post : Except String (List Pb.TopicHead) → N.Stores → Prop}
    (hs : N.Inv s) (hresolve : N.resolve spec.endpoint = some j)
    (hpost : ∀ heads : List TopicHead, heads.Nodup → (∀ h, h ∈ heads ↔ (N.view s j).IsHead h) →
      post (.ok (heads.map protoTopicHead)) s) :
    Performs (N.responsive.Answers i) (N.AsksPeers i) (callListHeads spec) post s := by
  refine ⟨⟨j, hresolve⟩, ?_⟩
  rintro answer s' ⟨⟨listed, rfl⟩, rfl, hserved⟩
  obtain ⟨j', hj', t, hruns⟩ := hserved listed rfl
  rw [hresolve] at hj'
  cases hj'
  obtain ⟨heads, t', hcall, hpure⟩ := hruns.of_bind
  obtain ⟨rfl, -⟩ := hpure.of_pure
  rcases storeAnswers_cases (hs j) (storeAnswers_of_runs hcall) with
    ⟨env, result, -, hresult, -, hstep⟩ | ⟨⟨e, herror⟩, -⟩
  · cases hresult
    exact hpost heads hstep.1 hstep.2.1
  · cases herror

theorem others_of_smooth (s₀ s : N.Stores) (c : Command) (answer : c.Answer) (s' : N.Stores)
    (hs : ∀ x, x ≠ i → s x = s₀ x) (h : N.smooth.Answers i s c answer s') :
    ∀ x, x ≠ i → s' x = s₀ x := by
  by_cases hstore : ∃ op, c = .store op
  · obtain ⟨op, rfl⟩ := hstore
    obtain ⟨-, t, -, rfl⟩ := h
    intro x hx
    rw [Function.update_of_ne hx]
    exact hs x hx
  · rw [answers_eq_of_ne_store h.2 fun op hc => hstore ⟨op, hc⟩]
    exact hs

theorem Peers.performs_syncPeer (h : N.Peers i j spec) (hs : N.Inv s)
    (hpeer : (N.view s j).Honest) (huniform : Uniform (N.view s j)) (batchLimit : UInt32) :
    Performs (N.responsive.Answers i) (N.AsksPeers i) (syncPeer (N.node i) spec batchLimit)
      (fun out s' => out = .ok () ∧ N.Inv s' ∧ N.view s' =
        Function.update (N.view s) i (Logs.caughtUp (N.view s i) (N.view s j))) s := by
  have hne : j ≠ i := fun heq => h.2.1 (congrArg N.node heq)
  have hconnect : Performs (N.responsive.Answers i) (N.AsksPeers i) (connectPeer spec)
      (fun out s' => out = .ok () ∧ s' = s) s := by
    refine ⟨trivial, ?_⟩
    rintro answer s' ⟨rfl, hsame⟩
    exact ⟨rfl, hsame⟩
  refine hconnect.bind ?_ (fun e s' herror => by cases herror.1)
  rintro u s' ⟨-, rfl⟩
  refine h.performs_verifyPeerIdentity.bind ?_ (fun e s' herror => by cases herror.1)
  rintro u s'' ⟨-, rfl⟩
  refine performs_bind (performs_callListHeads hs h.1 fun heads hnodup hlisted => ?_)
  have hheads := ((progress_start (i := i) hs).performs_syncHeads hne hpeer h.1 batchLimit hnodup
    (fun head hmem => (hlisted head).mp hmem) fun _ _ => rfl).and_invariant
    (I := fun s' => ∀ x, x ≠ i → s' x = s'' x) (fun x _ => rfl) (others_of_smooth s'')
  refine performs_bind ((hheads.mono smooth_of_responsive asksPeers_of_asks).consequence ?_)
  rintro out s₁ ⟨⟨⟨e, rfl⟩, head, hmem, hnot⟩ | ⟨rfl, reached, hprogress, hkept, hhandled⟩, hothers⟩
  · exact absurd (huniform.replicable _ ((hlisted head).mp hmem)) hnot
  · have hmax := eq_max_of_handles (wellFormed_view hs j) hlisted hkept fun head hmem =>
      ((hhandled head hmem).resolve_right fun hblank =>
        hblank.2.1 (huniform.replicable _ ((hlisted head).mp hmem))).2
    have hview : N.view s₁ =
        Function.update (N.view s'') i (Logs.caughtUp (N.view s'' i) (N.view s'' j)) := by
      ext x : 1
      by_cases hx : x = i
      · subst hx
        rw [Function.update_self, hprogress.mine_eq, hmax]
        rfl
      · rw [Function.update_of_ne hx]
        exact congrArg (N.storage x).logs (hothers x hx)
    refine (performs_recordPeerSyncSuccess hprogress.inv _ _ _ _ _ _ ?_).mono smooth_of_responsive
      asksPeers_of_asks
    intro s₂ hs₂ hsame
    exact ⟨rfl, hs₂, hsame.trans hview⟩

/-! ## A whole pass -/

noncomputable def pulled (N : Network ι) (w : ι → Logs) (peers : List PeerSpec) (mine : Logs) :
    Logs :=
  (peers.filterMap fun spec => N.resolve spec.endpoint).foldl
    (fun b j => Logs.caughtUp b (w j)) mine

omit [DecidableEq ι] in
theorem pulled_cons (h : N.Peers i j spec) (w : ι → Logs) (peers : List PeerSpec) (mine : Logs) :
    N.pulled w (spec :: peers) mine = N.pulled w peers (Logs.caughtUp mine (w j)) := by
  unfold pulled
  rw [List.filterMap_cons, h.1]
  rfl

theorem performs_syncPeers {config : PeerSyncConfig} (hlocal : config.localNode = N.node i)
    {peers : List PeerSpec} (hpeers : ∀ spec ∈ peers, ∃ j, N.Peers i j spec) (hs : N.Inv s)
    {w : ι → Logs} (hothers : ∀ x, x ≠ i → N.view s x = w x)
    (hw : ∀ x, x ≠ i → (w x).Honest ∧ Uniform (w x)) :
    Performs (N.responsive.Answers i) (N.AsksPeers i) (syncPeers config peers none)
      (fun out s' => out = .ok () ∧
        N.view s' = Function.update (N.view s) i (N.pulled w peers (N.view s i))) s := by
  induction peers generalizing s with
  | nil =>
      refine ⟨rfl, ?_⟩
      rw [pulled, List.filterMap_nil, List.foldl_nil, Function.update_eq_self]
  | cons spec rest ih =>
      obtain ⟨j, hpeer⟩ := hpeers spec List.mem_cons_self
      have hne : j ≠ i := fun heq => hpeer.2.1 (congrArg N.node heq)
      obtain ⟨hhonest, huniform⟩ := hw j hne
      rw [← hothers j hne] at hhonest huniform
      have hsync := hpeer.performs_syncPeer hs hhonest huniform config.batchLimit
      unfold syncPeers
      rw [hlocal]
      refine performs_bind (Performs.attempt (hsync.consequence ?_))
      rintro out s₁ ⟨rfl, hs₁, hview⟩
      have hothers₁ : ∀ x, x ≠ i → N.view s₁ x = w x := by
        intro x hx
        rw [hview, Function.update_of_ne hx]
        exact hothers x hx
      refine (ih (fun spec' hmem => hpeers spec' (List.mem_cons_of_mem _ hmem)) hs₁
        hothers₁).consequence ?_
      rintro out s₂ ⟨rfl, hview₂⟩
      refine ⟨rfl, ?_⟩
      rw [hview₂, hview, Function.update_idem, Function.update_self, pulled_cons hpeer,
        hothers j hne]

theorem visits_appends :
    Visits (Contract.ofCalls fun c : Command => ∀ op, c = .store op → op.appendsTo = none) () where
  takes := by
    intro head
    refine takes_of_calls ⟨⟨fun _ _ hc => by cases hc; rfl, fun _ _ hc => by cases hc⟩,
      fun _ _ _ _ hc => by cases hc; rfl⟩ ?_
    intro c hc op hop
    cases hc with
    | nowMs => cases hop
    | record state _ => cases hop; rfl
    | getHead => cases hop; rfl
    | fetch endpoint request => cases hop
  peer := by
    intro _ c _ hc op hop
    cases hc with
    | record state _ => cases hop; rfl
    | _ => cases hop

theorem exists_answer_of_asksPeers (hredb : ∀ x, N.storage x = .redb) (s : N.Stores) (c : Command)
    (hs : ∀ x, Reachable (s x)) (hasks : N.AsksPeers i s c) :
    ∃ answer s', N.responsive.Answers i s c answer s' := by
  have hsmooth : N.Asks i s c → (∀ answer : c.Answer, c.Completes answer → c.Responds answer) →
      ∃ answer s', N.responsive.Answers i s c answer s' := by
    intro hasks hresponds
    obtain ⟨answer, s', hcompletes, hanswer⟩ := exists_answer_of_asks hredb s c hs hasks
    exact ⟨answer, s', hresponds answer hcompletes, hanswer⟩
  cases c with
  | connect endpoint => exact ⟨Except.ok (), s, rfl, rfl⟩
  | health endpoint =>
      obtain ⟨j, hresolve⟩ := hasks
      refine ⟨Except.ok (health (N.node j)), s, ⟨_, rfl⟩, rfl, ?_⟩
      rintro response ⟨⟩
      exact ⟨j, hresolve, rfl⟩
  | listHeads endpoint =>
      obtain ⟨j, hresolve⟩ := hasks
      obtain ⟨heads, hread, -⟩ := Backend.listHeads_eq (Backend.inv_of_reachable (hs j))
        (accepts_of_redb (hredb j) _ ⟨0, 0, ⟨"m"⟩⟩ .listHeads)
      refine ⟨Except.ok (heads.map protoTopicHead), s, ⟨_, rfl⟩, rfl, ?_⟩
      rintro listed ⟨⟩
      exact ⟨j, hresolve, serves_listHeads hread⟩
  | store op => exact hsmooth hasks fun _ h => h
  | fetch endpoint request => exact hsmooth hasks fun _ h => h
  | nowMs => exact hsmooth hasks fun _ h => h
  | newMessageId => exact hsmooth hasks fun _ h => h
  | send m => exact hsmooth hasks fun _ h => h

variable {Cond : ι → N.Stores → (c : Command) → c.Answer → Prop} {config : PeerSyncConfig}
variable {a : State ι N.Stores Command Command.Answer}

/-- From every state of a run, a pass in which everything is answered. -/
theorem performs_syncOnce (hdistinct : N.Distinct)
    (hcond : ∀ i s c answer, Cond i s c answer → N.BelowLimit i s c answer)
    (hrun : (N.system.restrict Cond).Reaches (.init N.fresh) a)
    (hlocal : config.localNode = N.node i)
    (hpeers : ∀ spec ∈ config.peers, ∃ j, N.Peers i j spec) :
    Performs (N.responsive.Answers i) (N.AsksPeers i) (syncOnce config)
      (fun out s' => out = .ok () ∧ N.view s' = Function.update (N.view a.shared) i
        (N.pulled (N.view a.shared) config.peers (N.view a.shared i))) a.shared := by
  have hs := (kept_of_reaches hdistinct hcond hrun).1
  have hhonest := (honest_of_reaches hrun).2
  apply performs_syncPeers hlocal hpeers hs.1 fun x _ => rfl
  exact fun x _ => ⟨Logs.honest_of_messages (hhonest x), hs.uniform hdistinct x⟩

/-- On redb such a program has a run, under any condition that admits successful
calls which append to no log. -/
theorem exists_runs_of_performs {ε α : Type} {p : Server ε α}
    {post : Except ε α → N.Stores → Prop} (hredb : ∀ x, N.storage x = .redb)
    (hlenient : ∀ i s (c : Command) (answer : c.Answer),
      (∀ op, c = .store op → op.appendsTo = none) → c.Completes answer → Cond i s c answer)
    (hrun : (N.system.restrict Cond).Reaches (.init N.fresh) a)
    (hcalls : Calls (fun c => ∀ op, c = .store op → op.appendsTo = none) p)
    (hperforms : Performs (N.responsive.Answers i) (N.AsksPeers i) p post a.shared) :
    ∃ out s', Runs ((N.system.restrict Cond).Answers i) a.shared p out s' ∧ post out s' := by
  obtain ⟨out, s', hruns⟩ := hperforms.exists_runs (reachable_of_reaches hrun)
    (exists_answer_of_asksPeers hredb) fun s c answer s' hs hanswer =>
      reachable_of_smooth s c answer s' hs (smooth_of_responsive s c answer s' hanswer)
  refine ⟨out, s', ?_, hperforms.of_runs hruns⟩
  exact hruns.mono_of_calls hcalls fun s c answer s' happends hanswer =>
    ⟨hlenient i s c answer happends hanswer.1.completes, hanswer.2⟩

theorem exists_pass (hdistinct : N.Distinct) (hredb : ∀ x, N.storage x = .redb)
    (hcond : ∀ i s c answer, Cond i s c answer → N.BelowLimit i s c answer)
    (hlenient : ∀ i s (c : Command) (answer : c.Answer),
      (∀ op, c = .store op → op.appendsTo = none) → c.Completes answer → Cond i s c answer)
    (hrun : (N.system.restrict Cond).Reaches (.init N.fresh) a)
    (hlocal : config.localNode = N.node i)
    (hpeers : ∀ spec ∈ config.peers, ∃ j, N.Peers i j spec) :
    ∃ b, (N.system.restrict Cond).Reaches
        ⟨a.shared, a.tasks ++ [(i, (syncOnce config).discard)]⟩ b ∧
      b.tasks = a.tasks ++ [(i, .ret ())] ∧ N.view b.shared = Function.update (N.view a.shared) i
        (N.pulled (N.view a.shared) config.peers (N.view a.shared i)) := by
  obtain ⟨out, s', hruns, rfl, hview⟩ := exists_runs_of_performs hredb hlenient hrun
    (Contract.calls_of_keeps (visits_appends.syncPeers config config.peers none))
    (performs_syncOnce hdistinct hcond hrun hlocal hpeers)
  have htask : (a.tasks ++ [(i, (syncOnce config).discard)])[a.tasks.length]? =
      some (i, (syncOnce config).discard) := List.getElem?_concat_length
  refine ⟨_, reaches_of_runs hruns.discard htask, ?_, hview⟩
  rw [List.set_append_right _ _ (Nat.le_refl _), Nat.sub_self]
  rfl

omit [DecidableEq ι] in
theorem belowLimit_of_appends {c : Command} {answer : c.Answer}
    (h : ∀ op, c = .store op → op.appendsTo = none) : N.BelowLimit i s c answer := by
  cases c with
  | store op =>
      intro k hk
      rw [h op rfl] at hk
      cases hk
  | _ => trivial

/-- From every state that a run below the counter limit reaches, whatever its
tasks are in the middle of: a pass over other daemons, each the one that is
expected, returns `Ok` whenever everything it asks for is answered, and leaves
the daemon caught up with one peer after the other.  On redb, if the transport
delivers every response, everything can be answered, so the run can go on with such
a pass. -/
theorem pass_completes (hdistinct : N.Distinct)
    (hrun : (N.system.restrict N.BelowLimit).Reaches (.init N.fresh) a)
    (hlocal : config.localNode = N.node i)
    (hpeers : ∀ spec ∈ config.peers, ∃ j, N.Peers i j spec) :
    (∀ out s', Runs (N.responsive.Answers i) a.shared (syncOnce config) out s' →
      out = .ok () ∧ N.view s' = Function.update (N.view a.shared) i
        (N.pulled (N.view a.shared) config.peers (N.view a.shared i))) ∧
    ((∀ x, N.storage x = .redb) → ∃ b, (N.system.restrict N.BelowLimit).Reaches
        ⟨a.shared, a.tasks ++ [(i, (syncOnce config).discard)]⟩ b ∧
      b.tasks = a.tasks ++ [(i, .ret ())] ∧ N.view b.shared = Function.update (N.view a.shared) i
        (N.pulled (N.view a.shared) config.peers (N.view a.shared i))) := by
  have hcond : ∀ i s c answer, N.BelowLimit i s c answer → N.BelowLimit i s c answer :=
    fun _ _ _ _ h => h
  constructor
  · exact fun out s' hruns => (performs_syncOnce hdistinct hcond hrun hlocal hpeers).of_runs hruns
  · intro hredb
    exact exists_pass hdistinct hredb hcond (fun _ _ _ _ happends _ => belowLimit_of_appends happends)
      hrun hlocal hpeers

/-! ## A message that is published and deleted -/

/-- The condition admits successful calls, those that append only where the log has
room. -/
def Roomy (N : Network ι) (Cond : ι → N.Stores → (c : Command) → c.Answer → Prop) : Prop :=
  ∀ i w op, (∀ k ∈ op.appendsTo, (w i).current k ≠ UInt64.maxValue) → N.Permits Cond i w (· = op)

omit [DecidableEq ι] in
theorem roomy_belowLimit : N.Roomy N.BelowLimit := by
  intro i w op hroom s c answer hs hc _
  cases c with
  | store op' =>
      cases hc op' rfl
      intro k hk
      rw [hs.2]
      exact hroom k hk
  | _ => trivial

omit [DecidableEq ι] in
theorem Roomy.lenient (h : N.Roomy Cond) : N.Lenient Cond := by
  intro i w s c answer hs hc hok
  cases c with
  | store op =>
      refine h i w op ?_ s _ answer hs (fun op' hop => (Command.store.inj hop).symm) hok
      rw [hc op rfl]
      rintro k ⟨⟩
  | _ => exact h i w .listHeads (by rintro k ⟨⟩) s _ answer hs (fun op hop => by cases hop) hok

noncomputable def removedLogs : Logs :=
  ((filled 1).mark entryLog 1 1).append
    (Logs.marker ⟨"t"⟩ ⟨"a", "b", "c"⟩ 1 1 deleteTopic ⟨"a", "b", "c"⟩ ⟨0, 0, ⟨"m"⟩⟩) 0

theorem head_removedLogs : removedLogs.head entryLog = some 1 ∧
    removedLogs.head (LogKey.of deleteTopic ⟨"a", "b", "c"⟩) = some 1 := by
  have hne : entryLog ≠ LogKey.of deleteTopic ⟨"a", "b", "c"⟩ := by decide
  have hother : (filled 1).current (LogKey.of deleteTopic ⟨"a", "b", "c"⟩) = 0 := by
    rw [filled, Logs.append, Logs.write_current_of_ne_log (by decide)]
    rfl
  constructor
  · exact (Logs.write_head_of_ne_log hne).trans (Logs.append_head_self entry 0)
  · refine (Logs.append_head_self (Logs.marker ⟨"t"⟩ ⟨"a", "b", "c"⟩ 1 1 deleteTopic
      ⟨"a", "b", "c"⟩ ⟨0, 0, ⟨"m"⟩⟩) 0).trans ?_
    exact congrArg (fun last : UInt64 => some (last.saturatingAdd 1)) hother

theorem head_removedLogs_of_ne {k : LogKey} (hk : k.origin ≠ "a/b/c") :
    removedLogs.head k = none := by
  have hmarkers : k ≠ LogKey.of deleteTopic ⟨"a", "b", "c"⟩ :=
    fun heq => hk (congrArg LogKey.origin heq)
  have hentry : k ≠ entryLog := fun heq => hk (congrArg LogKey.origin heq)
  exact (Logs.write_head_of_ne_log hmarkers).trans (head_filled_of_ne 1 hentry)

theorem head_caughtUp_removed {k : LogKey} (hk : removedLogs.head k = some 1) :
    (Logs.caughtUp Logs.empty removedLogs).head k = some 1 := by
  have hcurrent : removedLogs.current k = 1 := congrArg (Option.getD · 0) hk
  change (if (0 : UInt64) < max 0 (removedLogs.current k) then some (max 0 (removedLogs.current k))
    else none) = some 1
  rw [hcurrent]
  rfl

theorem deleted_removedLogs : ∃ m, removedLogs.message entryLog 1 = some m ∧ m.deleted = true := by
  have hone : (nextEntry 0).headId = 1 := UInt64.toNat_inj.mp (nextEntry_headId (by decide))
  have hmessage := message_filled_succ 0
  rw [hone] at hmessage
  have hne : entryLog ≠ LogKey.of deleteTopic ⟨"a", "b", "c"⟩ := by decide
  refine ⟨(nextEntry 0).withDeleted true,
    (congrFun (Logs.write_message_of_ne_log hne) 1).trans ?_, rfl⟩
  rw [Logs.mark_message, hmessage, Option.map_some, nextEntry_deleted]
  rfl

theorem deleted_caughtUp_removed :
    ∃ m, (Logs.caughtUp Logs.empty removedLogs).message entryLog 1 = some m ∧ m.deleted = true := by
  obtain ⟨m, hm, hdeleted⟩ := deleted_removedLogs
  have hcurrent : removedLogs.current entryLog = 1 := congrArg (Option.getD · 0) head_removedLogs.1
  have hentry : Logs.entryTo Logs.empty removedLogs (fun k => max 0 (removedLogs.current k)) entryLog
      1 = some m := by
    rw [Logs.entryTo, if_neg (by decide), hcurrent, if_pos (by decide), hm]
  exact ⟨_, congrArg (Option.map _) hentry, Logs.flag_deleted.mpr (Or.inl hdeleted)⟩

theorem exists_removed {x : ι} (hnode : N.node x = ⟨"a", "b", "c"⟩) (hredb : N.storage x = .redb)
    (hcond : N.Roomy Cond) :
    ∃ a, (N.system.restrict Cond).Reaches (.init N.fresh) a ∧
      N.Rests (Function.update (fun _ => Logs.empty) x removedLogs) a := by
  have haccepts (b : Logs) (op : StoreOp) : @Backend.Accepts _ (N.storage x).Store
      (instBackendStore _) b ⟨0, 0, ⟨"m"⟩⟩ op := by
    rw [hredb]
    trivial
  have hzero : (0 : UInt64) ≠ UInt64.maxValue := by decide
  have hne : LogKey.of deleteTopic (N.node x) ≠ LogKey.of ⟨"t"⟩ (N.node x) :=
    fun hlog => absurd (congrArg LogKey.topic hlog) (show deleteTopic ≠ ⟨"t"⟩ by decide)
  obtain ⟨a₁, hpublish, ha₁⟩ := rests_init.exists_publish (i := x) ⟨0, 0, ⟨"m"⟩⟩ "t" .empty .empty
    (by decide) (by decide) (by decide) hcond.lenient
    (hcond _ _ _ (by rintro k ⟨⟩; exact hzero)) (haccepts _ _)
  obtain ⟨a₂, hdelete, ha₂⟩ := ha₁.exists_deleteRange (i := x) ⟨0, 0, ⟨"m"⟩⟩ "t" 1 1
    (by decide) (by decide) (by decide) (UInt64.le_refl 1) hcond.lenient
    (hcond _ _ _ (by
      rintro k ⟨⟩
      rw [Function.update_self, Logs.append, Logs.write_current_of_ne_log hne]
      exact hzero))
    (haccepts _ _)
  rw [Function.update_idem, Function.update_self, hnode] at ha₂
  exact ⟨a₂, hpublish.trans hdelete, ha₂⟩

theorem exists_publishedOnce {Cond : Bool → (pair .redb).Stores → (c : Command) → c.Answer → Prop}
    (hcond : (pair .redb).Lenient Cond)
    (hpermits : (pair .redb).Permits Cond true (fun _ => filled 0) (· = .appendMessage entry)) :
    ∃ a, ((pair .redb).system.restrict Cond).Reaches (.init (pair .redb).fresh) a ∧
      (pair .redb).Rests (Function.update (fun _ => Logs.empty) true (filled 1)) a :=
  rests_init.exists_publish ⟨0, 0, ⟨"m"⟩⟩ "t" .empty .empty (by decide) (by decide) (by decide)
    hcond hpermits trivial

omit [Formats] in
theorem peers_pair : (pair .redb).Peers false true ⟨"peer", none⟩ :=
  ⟨rfl, by decide, fun _ hexpected => by cases hexpected⟩

theorem exists_removed_taken
    {Cond : Bool → (pair .redb).Stores → (c : Command) → c.Answer → Prop}
    (hcond : (pair .redb).Roomy Cond)
    (hbelow : ∀ i s c answer, Cond i s c answer → (pair .redb).BelowLimit i s c answer)
    (hlenient : ∀ i s (c : Command) (answer : c.Answer),
      (∀ op, c = .store op → op.appendsTo = none) → c.Completes answer → Cond i s c answer) :
    ∃ a, ((pair .redb).system.restrict Cond).Reaches (.init (pair .redb).fresh) a ∧
      (∀ t ∈ a.tasks, t.2.first = none) ∧ (pair .redb).view a.shared true = removedLogs ∧
      (pair .redb).view a.shared false = Logs.caughtUp Logs.empty removedLogs := by
  obtain ⟨a, hrun, ha⟩ := exists_removed (N := pair .redb) (x := true) rfl rfl hcond
  let config : PeerSyncConfig := ⟨(pair .redb).node false, [⟨"peer", none⟩], 0⟩
  have hlocal : config.localNode = (pair .redb).node false := rfl
  obtain ⟨b, hpass, htasks, hview⟩ := exists_pass (distinct_pair .redb) (by decide) hbelow hlenient
    hrun hlocal (List.forall_mem_singleton.mpr ⟨true, peers_pair⟩)
  refine ⟨b, hrun.trans (.head (.start (Starts.syncOnce _ hlocal)) hpass), ?_, ?_, ?_⟩
  · rw [htasks]
    exact List.forall_mem_append.mpr ⟨ha.2, List.forall_mem_singleton.mpr rfl⟩
  · rw [hview, ha.1.2]
    rfl
  · rw [hview, Function.update_self, pulled_cons peers_pair, ha.1.2]
    rfl

omit [Formats] in
theorem pass_completes_pair : letI := Serde.formats
    ∃ a b, ((pair .redb).system.restrict (pair .redb).BelowLimit).Reaches
        (.init (pair .redb).fresh) a ∧
      ((pair .redb).view a.shared false).message entryLog 1 = none ∧
      ((pair .redb).system.restrict (pair .redb).BelowLimit).Reaches ⟨a.shared, a.tasks ++
        [(false, (syncOnce ⟨(pair .redb).node false, [⟨"peer", none⟩], 0⟩).discard)]⟩ b ∧
      (((pair .redb).view b.shared false).message entryLog 1).isSome := by
  let := Serde.formats
  obtain ⟨a, hrun, ha⟩ := exists_publishedOnce lenient_belowLimit (permits_belowLimit (by decide))
  let config : PeerSyncConfig := ⟨(pair .redb).node false, [⟨"peer", none⟩], 0⟩
  have hlocal : config.localNode = (pair .redb).node false := rfl
  obtain ⟨b, hpass, -, hview⟩ := (pass_completes (distinct_pair .redb) hrun hlocal
    (List.forall_mem_singleton.mpr ⟨true, peers_pair⟩)).2 (by decide)
  refine ⟨a, b, hrun, ?_, hpass, ?_⟩
  · rw [ha.1.2]
    rfl
  · rw [hview, Function.update_self, pulled_cons peers_pair, ha.1.2]
    change ((Logs.entryTo Logs.empty (filled 1) (fun k => max 0 ((filled 1).current k)) entryLog
      1).map _).isSome
    rw [Option.isSome_map]
    have hcurrent : (filled 1).current entryLog = 1 :=
      UInt64.toNat_inj.mp (current_filled 1 (by decide))
    rw [Logs.entryTo, if_neg (by decide), hcurrent, if_pos (by decide)]
    exact congrArg Option.isSome (message_filled_succ 0)

end Network

end Msgbus

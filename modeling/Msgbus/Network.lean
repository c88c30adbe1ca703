import Msgbus.Backends
import Msgbus.Lib.Interleaving
import Msgbus.Server.Obligations

/-!
# Networks of daemons

Honest daemons that run the programs of the server on their own stores and
answer each other with its handlers.  A store call is one transaction and may
fail; a request to a peer may fail at any point, and its answer is used whenever
the task that asked is next scheduled, however late that is.
-/

namespace Msgbus

open Program

/-! ## Local answers -/

section Local

variable {σ : Type} [MsgbusStore σ]

/-- A store call: the database carries it out, or fails and changes nothing.  The
ids it draws are valid, as those of `MessageId::new` are. -/
def StoreAnswers (s : σ) (op : StoreOp) (answer : Except MsgbusError op.Result) (s' : σ) : Prop :=
  (∃ env : CallEnv, ValidPart env.id.value ∧ answer = op.outcome s env ∧ s' = op.after s env) ∨
    ∃ message, answer = .error (.storage message) ∧ s' = s

def HandlerAnswers (s : σ) : (c : Command) → c.Answer → σ → Prop
  | .store op, answer, s' => StoreAnswers s op answer s'
  | _, _, _ => False

/-- A handler run on a store returns `a`. -/
def Serves {α : Type} (s : σ) (handler : Server Status α) (a : α) : Prop :=
  ∃ s', Runs HandlerAnswers s handler (.ok a) s'

theorem storeAnswers_of_runs {s s' : σ} {op : StoreOp} {result : op.Result}
    (h : Runs HandlerAnswers s (callStoreStatus op) (.ok result) s') :
    StoreAnswers s op (.ok result) s' := by
  have hcall := h.of_mapError
  cases hcall with
  | call hanswer hrest =>
      obtain ⟨rfl, rfl⟩ := hrest.of_ofExcept
      exact hanswer

end Local

variable [Formats]

/-! ## Honouring the contract -/

/-- What is left to show of surroundings that honour the contract of tasks: what
their store calls do, that no other call takes anything away, and what peers
return. -/
theorem Knowledge.honours_of_calls {ι W S : Type} {K : Knowledge ι W}
    {sys : System ι S Command Command.Answer} {view : S → W} {I : S → Prop}
    (hstore : ∀ i s op answer s', I s → K.Allows i (view s) (.store op) →
      sys.Answers i s (.store op) answer s' →
        I s' ∧ K.Later (view s) (view s') ∧ K.Ensures i (view s') (.store op) answer)
    (hother : ∀ i s c answer s', I s → (∀ op, c ≠ .store op) → sys.Answers i s c answer s' →
      I s' ∧ K.Later (view s) (view s'))
    (hid : ∀ i s (id : MessageId) s', sys.Answers i s .newMessageId id s' → ValidPart id.value)
    (hlisted : ∀ i s endpoint (heads : List Pb.TopicHead) s', I s →
      sys.Answers i s (.listHeads endpoint) (Except.ok heads) s' → ∀ listed ∈ heads, ∀ head,
        coreTopicHead listed = .ok head → K.Listed (view s') head)
    (hfetched : ∀ i s endpoint request (items : List Pb.FetchResponse) (last : Option Status) s',
      I s → sys.Answers i s (.fetch endpoint request) (Except.ok (items, last)) s' →
        ∀ item ∈ items, ∀ envelope m, item.message = some envelope →
          coreMessage envelope = .ok m → K.Known (view s') m) :
    sys.Honours K.contract view I := by
  intro i s c following answer s' hs hrequires hanswer
  cases c with
  | store op => exact hstore i s op answer s' hs hrequires.1 hanswer
  | nowMs =>
      obtain ⟨hs', hlater⟩ := hother i s _ answer s' hs (fun op hc => by cases hc) hanswer
      exact ⟨hs', hlater, trivial⟩
  | newMessageId =>
      obtain ⟨hs', hlater⟩ := hother i s _ answer s' hs (fun op hc => by cases hc) hanswer
      exact ⟨hs', hlater, hid i s answer s' hanswer⟩
  | send m =>
      obtain ⟨hs', hlater⟩ := hother i s _ answer s' hs (fun op hc => by cases hc) hanswer
      exact ⟨hs', hlater, trivial⟩
  | connect endpoint =>
      obtain ⟨hs', hlater⟩ := hother i s _ answer s' hs (fun op hc => by cases hc) hanswer
      exact ⟨hs', hlater, trivial⟩
  | health endpoint =>
      obtain ⟨hs', hlater⟩ := hother i s _ answer s' hs (fun op hc => by cases hc) hanswer
      exact ⟨hs', hlater, trivial⟩
  | listHeads endpoint =>
      obtain ⟨hs', hlater⟩ := hother i s _ answer s' hs (fun op hc => by cases hc) hanswer
      refine ⟨hs', hlater, ?_⟩
      intro heads hok
      cases hok
      exact hlisted i s endpoint heads s' hs hanswer
  | fetch endpoint request =>
      obtain ⟨hs', hlater⟩ := hother i s _ answer s' hs (fun op hc => by cases hc) hanswer
      refine ⟨hs', hlater, ?_⟩
      intro items last hok
      cases hok
      exact hfetched i s endpoint request items last s' hs hanswer

/-! ## The network -/

/-- Daemons with their identities, their storage and the endpoints they are
found at. -/
structure Network (ι : Type) where
  node : ι → NodeId
  storage : ι → StorageKind
  resolve : String → Option ι
  /-- `main` builds the identity with `NodeId::new`. -/
  valid : ∀ i, (node i).Valid

namespace Network

variable {ι : Type}

def Distinct (N : Network ι) : Prop := Function.Injective fun i => (N.node i).key

variable (N : Network ι)

abbrev Stores : Type := (i : ι) → (N.storage i).Store

def fresh : N.Stores := fun _ => MsgbusStore.empty

def view (s : N.Stores) : ι → Logs := fun i => (N.storage i).logs (s i)

def Inv (s : N.Stores) : Prop := ∀ i, (N.storage i).Inv (s i)

section System

variable [DecidableEq ι]

/-- How the network answers a call of daemon `i`.  What a peer returns is what
its handler returns on its store, up to a stream that breaks off. -/
def Answers (i : ι) (s : N.Stores) : (c : Command) → c.Answer → N.Stores → Prop
  | .store op, answer, s' => ∃ t, StoreAnswers (s i) op answer t ∧ s' = Function.update s i t
  | .newMessageId, (id : MessageId), s' => ValidPart id.value ∧ s' = s
  | .health endpoint, (answer : Except Status Pb.HealthResponse), s' => s' = s ∧
      ∀ response, answer = .ok response →
        ∃ j, N.resolve endpoint = some j ∧ response = health (N.node j)
  | .listHeads endpoint, (answer : Except Status (List Pb.TopicHead)), s' => s' = s ∧
      ∀ heads, answer = .ok heads →
        ∃ j, N.resolve endpoint = some j ∧ Serves (s j) listHeads heads
  | .fetch endpoint request, (answer : Except Status (List Pb.FetchResponse × Option Status)),
      s' => s' = s ∧ ∀ items last, answer = .ok (items, last) →
        ∃ j all, N.resolve endpoint = some j ∧ Serves (s j) (fetch (N.node j) request) all ∧
          items <+: all ∧ (last = none → items = all)
  | _, _, s' => s' = s

/-- How a daemon `i` is answered whose peers may return anything. -/
def ExposedAnswers (i : ι) (s : N.Stores) : (c : Command) → c.Answer → N.Stores → Prop
  | .store op, answer, s' => ∃ t, StoreAnswers (s i) op answer t ∧ s' = Function.update s i t
  | .newMessageId, (id : MessageId), s' => ValidPart id.value ∧ s' = s
  | _, _, s' => s' = s

/-- The tasks of a daemon: requests of its clients, its passes of synchronisation
and the replay of its delete logs when it starts. -/
inductive Starts (i : ι) : Server Unit Unit → Prop where
  | publish (request : Pb.PublishRequest) : Starts i (publish (N.node i) request).discard
  | deleteRange (request : Pb.DeleteRangeRequest) :
      Starts i (deleteRange (N.node i) request).discard
  | enqueueFifo (request : Pb.EnqueueFifoRequest) :
      Starts i (enqueueFifo (N.node i) request).discard
  | peekFifo (queue : String) : Starts i (peekFifo queue).discard
  | ackFifo (request : Pb.FifoFrontRequest) : Starts i (ackFifo request).discard
  | rejectFifo (request : Pb.FifoFrontRequest) : Starts i (rejectFifo request).discard
  | syncOnce (config : PeerSyncConfig) (h : config.localNode = N.node i) :
      Starts i (syncOnce config).discard
  | replayControlMessages (fuel : Nat) : Starts i (replayControlMessages fuel).discard

def system : System ι N.Stores Command Command.Answer where
  Starts := N.Starts
  Answers := N.Answers

def exposed : System ι N.Stores Command Command.Answer where
  Starts := N.Starts
  Answers := N.ExposedAnswers

end System

variable {N}

theorem view_fresh : N.view N.fresh = fun _ => Logs.empty := by
  ext i : 1
  exact (instBackendStore (N.storage i)).logs_empty

theorem inv_fresh : N.Inv N.fresh := fun i => (instBackendStore (N.storage i)).inv_empty

theorem meets_of_starts {i : ι} {p : Server Unit Unit} {W : Type} {K : Knowledge ι W}
    (hnode : K.node = N.node) (h : N.Starts i p) (w : W) :
    K.contract.Meets i p (fun _ _ => True) w := by
  cases h with
  | publish request =>
      rw [← hnode]
      exact (Knowledge.keeps_publish request).discard
  | deleteRange request =>
      rw [← hnode]
      exact (Knowledge.keeps_deleteRange request).discard
  | enqueueFifo request =>
      rw [← hnode]
      exact (Knowledge.keeps_enqueueFifo request).discard
  | peekFifo queue => exact (Knowledge.keeps_peekFifo queue).discard
  | ackFifo request => exact (Knowledge.keeps_ackFifo request).discard
  | rejectFifo request => exact (Knowledge.keeps_rejectFifo request).discard
  | syncOnce config h => exact (Knowledge.keeps_syncOnce config).discard
  | replayControlMessages fuel => exact (Knowledge.keeps_replayControlMessages fuel).discard

theorem wellFormed_view {s : N.Stores} (hs : N.Inv s) (i : ι) : (N.view s i).WellFormed :=
  Backend.wellFormed (hs i)

variable [DecidableEq ι]

theorem answers_eq_of_ne_store {i : ι} {s s' : N.Stores} {c : Command} {answer : c.Answer}
    (h : N.Answers i s c answer s') (hc : ∀ op, c ≠ .store op) : s' = s := by
  cases c with
  | store op => exact absurd rfl (hc op)
  | nowMs => exact h
  | newMessageId => exact h.2
  | send m => exact h
  | connect endpoint => exact h
  | health endpoint => exact h.1
  | listHeads endpoint => exact h.1
  | fetch endpoint request => exact h.1

theorem exposedAnswers_eq_of_ne_store {i : ι} {s s' : N.Stores} {c : Command} {answer : c.Answer}
    (h : N.ExposedAnswers i s c answer s') (hc : ∀ op, c ≠ .store op) : s' = s := by
  cases c with
  | store op => exact absurd rfl (hc op)
  | newMessageId => exact h.2
  | _ => exact h

theorem view_update (s : N.Stores) (i : ι) (t : (N.storage i).Store) :
    N.view (Function.update s i t) =
      Function.update (N.view s) i ((N.storage i).logs t) := by
  ext j : 1
  by_cases hj : j = i
  · subst hj
    simp only [view, Function.update_self]
  · simp only [view, Function.update_of_ne hj]

theorem inv_update {s : N.Stores} (hs : N.Inv s) {i : ι} {t : (N.storage i).Store}
    (ht : (N.storage i).Inv t) :
    N.Inv (Function.update s i t) := by
  intro j
  by_cases hj : j = i
  · subst hj
    rw [Function.update_self]
    exact ht
  · rw [Function.update_of_ne hj]
    exact hs j

end Network

/-! ## What an answer does to the logs -/

section Store

variable {σ : Type} [Backend σ] {s s' : σ} {op : StoreOp} {answer : Except MsgbusError op.Result}

/-- A store call that is answered takes an abstract step and returns its result,
or leaves the store as it was. -/
theorem storeAnswers_cases (hs : Backend.Inv s) (h : StoreAnswers s op answer s') :
    (∃ (env : CallEnv) (result : op.Result), ValidPart env.id.value ∧ answer = .ok result ∧
        Backend.Inv s' ∧ Logs.Step env op result (Backend.logs s) (Backend.logs s')) ∨
      ((∃ e, answer = .error e) ∧ s' = s) := by
  rcases h with ⟨env, hid, rfl, rfl⟩ | ⟨message, rfl, rfl⟩
  · unfold StoreOp.outcome StoreOp.after
    cases hexec : op.exec s env with
    | error e => exact Or.inr ⟨⟨e, rfl⟩, rfl⟩
    | ok result =>
        obtain ⟨r, t⟩ := result
        obtain ⟨hinv, hstep⟩ := Backend.refines hs hexec
        exact Or.inl ⟨env, r, hid, rfl, hinv, hstep⟩
  · exact Or.inr ⟨⟨_, rfl⟩, rfl⟩

theorem message_of_fetched {env : CallEnv} {query : FetchQuery} {messages : List StoredMessage}
    {b : Logs} (hs : Backend.Inv s)
    (hstep : Logs.Step env (.fetchMessages query) messages (Backend.logs s) b) {m : StoredMessage}
    (hm : m ∈ messages) : (Backend.logs s).message m.log m.headId = some m := by
  have hwf := Backend.wellFormed hs
  rw [hstep.1] at hm
  have hmessage := (Logs.mem_log hwf).mp (List.mem_of_mem_drop (List.mem_of_mem_take hm))
  rw [(hwf.positioned _ _ _ hmessage).2]
  exact hmessage

theorem isHead_of_serves_listHeads {heads : List Pb.TopicHead} (hs : Backend.Inv s)
    (h : Serves s listHeads heads) {head : TopicHead} {listed : Pb.TopicHead}
    (hlisted : listed ∈ heads) (hhead : coreTopicHead listed = .ok head) :
    (Backend.logs s).IsHead head := by
  obtain ⟨s', hruns⟩ := h
  obtain ⟨stored, s₁, hcall, hpure⟩ := hruns.of_bind
  obtain ⟨rfl, -⟩ := hpure.of_pure
  rcases storeAnswers_cases hs (storeAnswers_of_runs hcall) with
    ⟨env, result, -, hresult, -, hstep⟩ | ⟨⟨e, herror⟩, -⟩
  · cases hresult
    obtain ⟨stored', hmem, rfl⟩ := List.mem_map.mp hlisted
    rw [coreTopicHead_protoTopicHead_eq hhead]
    exact (hstep.2.1 stored').mp hmem
  · cases herror

theorem message_of_serves_fetch {node : NodeId} {request : Pb.FetchRequest}
    {items : List Pb.FetchResponse} (hs : Backend.Inv s) (h : Serves s (fetch node request) items)
    {item : Pb.FetchResponse} {envelope : Pb.MessageEnvelope} {m : StoredMessage}
    (hitem : item ∈ items) (henvelope : item.message = some envelope)
    (hm : coreMessage envelope = .ok m) : (Backend.logs s).message m.log m.headId = some m := by
  obtain ⟨s', hruns⟩ := h
  obtain ⟨topic, s₁, htopic, hafter⟩ := hruns.of_bind
  obtain ⟨-, rfl⟩ := htopic.of_ofExcept
  obtain ⟨origin, s₂, horigin, hread⟩ := hafter.of_bind
  obtain ⟨-, rfl⟩ := horigin.of_ofExcept
  obtain ⟨messages, s₃, hcall, hpure⟩ := hread.of_bind
  obtain ⟨rfl, -⟩ := hpure.of_pure
  rcases storeAnswers_cases hs (storeAnswers_of_runs hcall) with
    ⟨env, result, -, hresult, -, hstep⟩ | ⟨⟨e, herror⟩, -⟩
  · cases hresult
    obtain ⟨stored, hmem, rfl⟩ := List.mem_map.mp hitem
    cases henvelope
    rw [coreMessage_protoMessage_eq hm]
    exact message_of_fetched hs hstep hmem
  · cases herror

end Store

namespace Network

variable {ι : Type} [DecidableEq ι] {N : Network ι}

def headAt (N : Network ι) (s : N.Stores) (i : ι) (k : LogKey) : Nat :=
  ((N.view s i).current k).toNat

theorem headAt_le_of_answers {i : ι} {s s' : N.Stores} {c : Command} {answer : c.Answer}
    (hs : N.Inv s) (h : N.ExposedAnswers i s c answer s') (j : ι) (k : LogKey) :
    N.headAt s j k ≤ N.headAt s' j k := by
  by_cases hstore : ∃ op, c = .store op
  · obtain ⟨op, rfl⟩ := hstore
    obtain ⟨t, hstore, rfl⟩ := h
    unfold headAt
    rw [view_update]
    revert j
    refine (Function.forall_update_iff (N.view s) fun j b =>
      ((N.view s j).current k).toNat ≤ (b.current k).toNat).mpr ⟨?_, fun j _ => Nat.le_refl _⟩
    rcases storeAnswers_cases (hs i) hstore with ⟨env, result, -, -, -, hstep⟩ | ⟨-, rfl⟩
    · exact Logs.current_le_of_step hstep k
    · exact Nat.le_refl _
  · rw [exposedAnswers_eq_of_ne_store h fun op hop => hstore ⟨op, hop⟩]

end Network

end Msgbus

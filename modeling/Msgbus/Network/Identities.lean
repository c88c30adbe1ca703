import Msgbus.Network.Runs

/-!
# Stored identities

Every node that a store names was validated, unless `core_node` let three empty
parts through: it does so for the target of an enqueue and for the origin of a
head that a peer lists, where nothing replaces them by a node.
-/

namespace Msgbus

open Program

/-- Three empty parts, which `core_node` does not validate. -/
def Pb.NodeId.Blank (value : Pb.NodeId) : Prop :=
  value.tenantId = "" ∧ value.blName = "" ∧ value.deviceId = ""

theorem valid_of_requiredNode {value : Option Pb.NodeId} {absent : Status} {node : NodeId}
    (h : requiredNode value absent = .ok node)
    (hblank : ∀ given, value = some given → ¬ given.Blank) : node.Valid := by
  unfold requiredNode at h
  cases value with
  | none => cases h
  | some given =>
      change coreNode given = .ok node at h
      unfold coreNode at h
      split_ifs at h with hempty
      · simp only [Bool.and_eq_true, String.isEmpty_iff] at hempty
        exact absurd ⟨hempty.1.1, hempty.1.2, hempty.2⟩ (hblank given rfl)
      · exact (NodeId.new_eq_ok.mp (Except.mapError_eq_ok.mp h)).2

variable [Formats]

/-! ## One store -/

/-- Every message of a log has a valid origin, and every message of a queue a
valid source and target. -/
structure StorageKind.IdentitiesValid (kind : StorageKind) (s : kind.Store) : Prop where
  inv : kind.FifoInv s
  logs : ∀ k n m, (kind.logs s).message k n = some m → m.origin.Valid
  queues : ∀ place m, (kind.queues s).waiting place = some m → m.source.Valid ∧ m.target.Valid

def StoreOp.NamesNodes : StoreOp → Prop
  | .appendMessage m => m.origin.Valid
  | .putReplicatedMessage m => m.origin.Valid
  | .tombstoneRangeWithMarker _ _ _ _ _ markerOrigin => markerOrigin.Valid
  | .enqueueFifo m => m.source.Valid ∧ m.target.Valid
  | _ => True

namespace StorageKind

theorem identitiesValid_empty (kind : StorageKind) : kind.IdentitiesValid MsgbusStore.empty where
  inv := kind.fifoInv_empty
  logs := by
    intro k n m hm
    rw [show kind.logs MsgbusStore.empty = Logs.empty from (instBackendStore kind).logs_empty] at hm
    cases hm
  queues := by
    intro place m hm
    rw [kind.queues_empty] at hm
    cases hm

theorem origin_valid_of_step {env : CallEnv} {op : StoreOp} {result : op.Result} {b b' : Logs}
    (hb : ∀ k n m, b.message k n = some m → m.origin.Valid) (hop : op.NamesNodes)
    (hstep : Logs.Step env op result b b') {k : LogKey} {n : HeadId} {m : StoredMessage}
    (hm : b'.message k n = some m) : m.origin.Valid := by
  rcases Logs.step_message_cases hstep hm with ⟨old, hold, hkeep⟩ | ⟨msg, rfl, rfl⟩ |
    ⟨msg, rfl, rfl⟩ | ⟨topic, origin, first, last, markerTopic, markerOrigin, rfl, rfl⟩
  · rw [hkeep.1]
    exact hb k n old hold
  · exact hop
  · exact hop
  · exact hop

theorem IdentitiesValid.storeAnswers {kind : StorageKind} {s s' : kind.Store} {op : StoreOp}
    {answer : Except MsgbusError op.Result} (hs : kind.IdentitiesValid s) (hop : op.NamesNodes)
    (h : StoreAnswers s op answer s') : kind.IdentitiesValid s' := by
  rcases h with ⟨env, -, -, rfl⟩ | ⟨message, -, rfl⟩
  · have hinv := kind.fifoInv_after hs.inv env op
    unfold StoreOp.after at hinv ⊢
    cases hexec : op.exec s env with
    | error e => exact hs
    | ok result =>
        obtain ⟨r, t⟩ := result
        rw [hexec] at hinv
        refine ⟨hinv, ?_, ?_⟩
        · intro k n m hm
          exact origin_valid_of_step hs.logs hop (Backend.refines hs.inv.inv hexec).2 hm
        · intro place m hm
          rcases (kind.exec_fifo hs.inv hexec).2 with hstep | ⟨-, hsame⟩
          · rcases Queues.step_waiting hstep hm with ⟨old, hold, hsource, htarget⟩ |
              ⟨msg, rfl, hsource, htarget⟩
            · rw [hsource, htarget]
              exact hs.queues place old hold
            · rw [hsource, htarget]
              exact hop
          · exact hs.queues place m (hsame.waiting ▸ hm)
  · exact hs

end StorageKind

/-! ## A daemon among arbitrary peers -/

def identityKnowledge {ι : Type} (node : ι → NodeId) : Knowledge ι Unit where
  node := node
  Later := fun _ _ => True
  refl := fun _ => trivial
  trans := fun _ _ => trivial
  Known := fun _ _ => True
  known_later := fun _ _ => trivial
  Listed := fun _ head => head.origin.Valid
  listed_later := fun _ h => h
  Wanted := fun _ _ origin => origin.Valid
  Held := fun _ _ _ => True
  held_later := fun _ _ => trivial
  held_of_known := fun _ _ => trivial
  Sent := fun _ _ _ => True
  sent_later := fun _ _ => trivial

namespace Network

open System

variable {ι : Type} {N : Network ι}

/-- No enqueue is for a target of three empty parts, and no head that a peer
lists has such an origin. -/
def Named (N : Network ι) (_ : ι) (_ : N.Stores) : (c : Command) → c.Answer → Prop
  | .store (.enqueueFifo m), _ => m.target.isEmpty = false
  | .listHeads _, (answer : Except Status (List Pb.TopicHead)) =>
      ∀ heads, answer = .ok heads → ∀ listed ∈ heads, ∀ origin, listed.origin = some origin →
        ¬ origin.Blank
  | _, _ => True

theorem namesNodes_of_allows {i : ι} {s : N.Stores} {op : StoreOp}
    {answer : Except MsgbusError op.Result} (hnamed : N.Named i s (.store op) answer)
    (hallows : (identityKnowledge N.node).Allows i () (.store op)) : op.NamesNodes := by
  cases op with
  | appendMessage m =>
      change m.origin.Valid
      rw [show m.origin = N.node i from hallows.1]
      exact N.valid i
  | putReplicatedMessage m => exact hallows.2
  | tombstoneRangeWithMarker topic origin first last markerTopic markerOrigin =>
      change markerOrigin.Valid
      rw [show markerOrigin = N.node i from hallows.2.2.2]
      exact N.valid i
  | enqueueFifo m =>
      obtain ⟨hsource, hvalid | hempty⟩ := hallows
      · rw [StoreOp.NamesNodes, show m.source = N.node i from hsource]
        exact ⟨N.valid i, hvalid⟩
      · rw [show m.target.isEmpty = false from hnamed] at hempty
        cases hempty
  | _ => trivial

variable [DecidableEq ι]

theorem honours_identities :
    (N.exposed.restrict N.Named).Honours (identityKnowledge N.node).contract (fun _ => ())
      (fun s => ∀ i, (N.storage i).IdentitiesValid (s i)) := by
  apply Knowledge.honours_of_calls
  · rintro i s op answer s' hs hallows ⟨hnamed, t, hstore, rfl⟩
    refine ⟨?_, trivial, ?_⟩
    · refine (Function.forall_update_iff s
        fun j (t : (N.storage j).Store) => (N.storage j).IdentitiesValid t).mpr
          ⟨(hs i).storeAnswers (namesNodes_of_allows hnamed hallows) hstore, fun j _ => hs j⟩
    · cases op with
      | fetchMessages query => exact fun _ _ _ _ => trivial
      | appendMessage msg => exact fun _ _ => trivial
      | getHead topic origin =>
          rintro stored head - hlisted - rfl -
          exact hlisted
      | putReplicatedMessage m => exact fun _ => trivial
      | tombstoneRangeWithMarker topic origin first last markerTopic markerOrigin =>
          exact fun _ _ => trivial
      | _ => trivial
  · rintro i s c answer s' hs hc ⟨-, hanswer⟩
    cases exposedAnswers_eq_of_ne_store hanswer hc
    exact ⟨hs, trivial⟩
  · rintro i s id s' ⟨-, hid, -⟩
    exact hid
  · rintro i s endpoint heads s' - ⟨hnamed, -⟩ listed hlisted head hhead
    unfold coreTopicHead at hhead
    obtain ⟨origin, horigin, hhead⟩ := Except.bind_eq_ok.mp hhead
    obtain ⟨topic, -, hhead⟩ := Except.bind_eq_ok.mp hhead
    cases hhead
    exact valid_of_requiredNode horigin (hnamed heads rfl listed hlisted)
  · exact fun _ _ _ _ _ _ _ _ _ _ _ _ _ _ _ => trivial

/-- In every run without a blank target or a blank origin among the listed
heads, whatever else clients and peers send, every node in a store is valid. -/
theorem identities_valid {a : State ι N.Stores Command Command.Answer}
    (hrun : (N.exposed.restrict N.Named).Reaches (.init N.fresh) a) (i : ι) :
    (∀ k n m, (N.view a.shared i).message k n = some m → m.origin.validate = .ok ()) ∧
      ∀ place m, ((N.storage i).queues (a.shared i)).waiting place = some m →
        m.source.validate = .ok () ∧ m.target.validate = .ok () := by
  have hvalid := (System.kept_of_reaches (fun _ _ w hstarts => meets_of_starts rfl hstarts w)
    honours_identities (fun i => (N.storage i).identitiesValid_empty) hrun).1 i
  refine ⟨fun k n m hm => NodeId.validate_eq_ok.mpr (hvalid.logs k n m hm), ?_⟩
  intro place m hm
  obtain ⟨hsource, htarget⟩ := hvalid.queues place m hm
  exact ⟨NodeId.validate_eq_ok.mpr hsource, NodeId.validate_eq_ok.mpr htarget⟩

/-! ## Two enqueues -/

def enqueueFor (target : NodeId) : Pb.EnqueueFifoRequest :=
  ⟨"q", "t", none, some (protoNode target), .empty, .empty⟩

theorem exists_enqueued (Cond : Unit → solo.Stores → (c : Command) → c.Answer → Prop)
    (target : NodeId)
    (htarget : requiredNode (some (protoNode target)) (.invalidArgument "target is required") =
      .ok target)
    (hid : ∀ s id, Cond () s .newMessageId id)
    (henqueue : ∀ s (m : NewFifoMessage) answer, m.target = target →
      Cond () s (.store (.enqueueFifo m)) answer) :
    ∃ a m, (solo.exposed.restrict Cond).Reaches (.init solo.fresh) a ∧
      ((solo.storage ()).queues (a.shared ())).waiting (⟨"q"⟩, 1) = some m ∧ m.target = target := by
  let msg : NewFifoMessage := ⟨⟨"m"⟩, ⟨"q"⟩, ⟨"t"⟩, solo.node (), target, .empty, .empty⟩
  let env : CallEnv := ⟨0, 0, ⟨"m"⟩⟩
  have hinv := StorageKind.redb.fifoInv_empty
  obtain ⟨stored, t, hexec⟩ : ∃ stored t,
      (StoreOp.enqueueFifo msg).exec (MsgbusStore.empty : StorageKind.redb.Store) env =
        .ok (stored, t) := (StorageKind.redb.exec_fifo_ok_iff hinv rfl).mpr trivial
  have hwaiting : (StorageKind.redb.queues t).waiting (⟨"q"⟩, 1) =
      some (Queues.empty.enqueued msg 0) := by
    rcases (StorageKind.redb.exec_fifo hinv hexec).2 with ⟨-, hqueues⟩ | ⟨⟨state, hop⟩, -⟩
    · rw [hqueues, StorageKind.queues_empty]
      exact Function.update_self ((⟨"q"⟩ : QueueName), (1 : UInt64)) _ Queues.empty.waiting
    · cases hop
  have hanswer : (solo.exposed.restrict Cond).Answers () solo.fresh (.store (.enqueueFifo msg))
      (Except.ok stored) (Function.update solo.fresh () t) :=
    ⟨henqueue _ msg _ rfl, t, Or.inl ⟨env, by decide, (StoreOp.outcome_eq_ok.mpr ⟨t, hexec⟩).symm,
      (StoreOp.after_of_ok hexec).symm⟩, rfl⟩
  have hidle : (solo.exposed.restrict Cond).Answers () solo.fresh .newMessageId (⟨"m"⟩ : MessageId)
      solo.fresh := ⟨hid _ _, by decide, rfl⟩
  have hqueue : QueueName.new (enqueueFor target).queue = .ok ⟨"q"⟩ :=
    QueueName.new_eq_ok.mpr ⟨show ValidPart "q" by decide, rfl⟩
  have hwrite : writeTarget (solo.node ()) (enqueueFor target).topic none =
      .ok (⟨"t"⟩, solo.node ()) :=
    writeTarget_self (solo.node ()) (show ValidPart "t" by decide)
      (show (⟨"t"⟩ : Topic) ≠ deleteTopic by decide)
  have hruns := (runs_enqueueFifo hqueue hwrite htarget hidle hanswer).discard
  have hstart : (solo.exposed.restrict Cond).Starts ()
      (enqueueFifo (solo.node ()) (enqueueFor target)).discard := Starts.enqueueFifo _
  exact ⟨_, _, reaches_task hstart hruns [], hwaiting, rfl⟩

omit [Formats] in
theorem identities_valid_enqueued : letI := Serde.formats
    ∃ (a : State Unit solo.Stores Command Command.Answer) (m : StoredFifoMessage),
      (solo.exposed.restrict solo.Named).Reaches (.init solo.fresh) a ∧
      ((solo.storage ()).queues (a.shared ())).waiting (⟨"q"⟩, 1) = some m ∧
      m.source.validate = .ok () ∧ m.target.validate = .ok () := by
  let := Serde.formats
  have hnamed : ∀ s (m : NewFifoMessage) (answer : Command.Answer (.store (.enqueueFifo m))),
      m.target = ⟨"x", "y", "z"⟩ → solo.Named () s (.store (.enqueueFifo m)) answer := by
    intro s m answer htarget
    change m.target.isEmpty = false
    rw [htarget]
    rfl
  obtain ⟨a, m, hrun, hm, -⟩ := exists_enqueued solo.Named ⟨"x", "y", "z"⟩ rfl
    (fun _ _ => trivial) hnamed
  exact ⟨a, m, hrun, hm, (identities_valid hrun ()).2 _ m hm⟩

omit [Formats] in
/-- An enqueue for three empty parts stores a target that is not valid. -/
theorem blank_target_enqueued : letI := Serde.formats
    ∃ (a : State Unit solo.Stores Command Command.Answer) (m : StoredFifoMessage),
      (solo.node ()).validate = .ok () ∧ solo.exposed.Reaches (.init solo.fresh) a ∧
      ((solo.storage ()).queues (a.shared ())).waiting (⟨"q"⟩, 1) = some m ∧
      m.target.validate ≠ .ok () := by
  let := Serde.formats
  obtain ⟨a, m, hrun, hm, htarget⟩ := exists_enqueued (fun _ _ _ _ => True) ⟨"", "", ""⟩ rfl
    (fun _ _ => trivial) (fun _ _ _ _ => trivial)
  refine ⟨a, m, rfl, Reaches.of_restrict hrun, hm, ?_⟩
  rw [htarget, ne_eq, NodeId.validate_eq_ok]
  decide

end Network

end Msgbus

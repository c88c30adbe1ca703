import Msgbus.Network.Completion
import Msgbus.Network.Deletes

/-!
# Relayed logs

A pass that returns `Ok` has brought everything its peers held when it started,
whatever else ran in the meantime and however its calls were interleaved with
other tasks.  So along a chain of such passes every log travels over any number
of daemons, and with it the owner's deletes.
-/

namespace Msgbus

open Program Contract

variable [Formats]

theorem mem_of_serves_listHeads {σ : Type} [Backend σ] {s : σ} {heads : List Pb.TopicHead}
    {head : TopicHead} (hs : Backend.Inv s) (h : Serves s listHeads heads)
    (hhead : (Backend.logs s).IsHead head) : protoTopicHead head ∈ heads := by
  obtain ⟨s', hruns⟩ := h
  obtain ⟨stored, s₁, hcall, hpure⟩ := hruns.of_bind
  obtain ⟨rfl, -⟩ := hpure.of_pure
  rcases storeAnswers_cases hs (storeAnswers_of_runs hcall) with
    ⟨env, result, -, hresult, -, hstep⟩ | ⟨⟨e, herror⟩, -⟩
  · cases hresult
    exact List.mem_map_of_mem ((hstep.2.1 head).mpr hhead)
  · cases herror

omit [Formats] in
theorem headId_of_coreMessage {envelope : Pb.MessageEnvelope} {m : StoredMessage}
    (h : coreMessage envelope = .ok m) : m.headId = envelope.headId := by
  unfold coreMessage at h
  obtain ⟨origin, -, h⟩ := Except.bind_eq_ok.mp h
  split_ifs at h
  · cases h
  · obtain ⟨id, -, h⟩ := Except.bind_eq_ok.mp h
    obtain ⟨topic, -, h⟩ := Except.bind_eq_ok.mp h
    cases h
    rfl

omit [Formats] in
theorem validPart_of_coreTopicHead {listed : Pb.TopicHead} {head : TopicHead}
    (h : coreTopicHead listed = .ok head) : ValidPart head.topic.value := by
  unfold coreTopicHead at h
  obtain ⟨origin, -, h⟩ := Except.bind_eq_ok.mp h
  obtain ⟨topic, htopic, h⟩ := Except.bind_eq_ok.mp h
  cases h
  obtain ⟨hvalid, rfl⟩ := Topic.new_eq_ok.mp (Except.mapError_eq_ok.mp htopic)
  exact hvalid

omit [Formats] in
theorem StoredMessage.Keeps.antisymm {m m' : StoredMessage} (h : m.Keeps m') (h' : m'.Keeps m) :
    m' = m := by
  rw [h.1, StoredMessage.withDeleted_of_eq (Bool.eq_iff_iff.mpr ⟨h.2, h'.2⟩)]

omit [Formats] in
theorem Grown.refl {ι : Type} (w : ι → Logs) : Grown w w := fun i => .refl (w i)

omit [Formats] in
theorem Grown.trans {ι : Type} {w₁ w₂ w₃ : ι → Logs} (h₁ : Grown w₁ w₂) (h₂ : Grown w₂ w₃) :
    Grown w₁ w₃ :=
  fun i => (h₁ i).trans (h₂ i)

/-- What `sync_peer` does before it records its success. -/
def visitPeer (localNode : NodeId) (peer : PeerSpec) (batchLimit : UInt32) :
    Server String Unit := do
  connectPeer peer
  verifyPeerIdentity localNode peer
  let heads ← callListHeads peer
  syncHeads peer batchLimit heads

theorem syncPeer_eq (localNode : NodeId) (peer : PeerSpec) (batchLimit : UInt32) :
    syncPeer localNode peer batchLimit = visitPeer localNode peer batchLimit >>= fun _ =>
      recordPeerSyncSuccess peer none none 0 0 0 := by
  change _ = Program.bind (Program.bind _ _) _
  rw [bind_assoc]
  refine congrArg (Program.bind (connectPeer peer)) (funext fun _ => ?_)
  change _ = Program.bind (Program.bind _ _) _
  rw [bind_assoc]
  refine congrArg (Program.bind (verifyPeerIdentity localNode peer)) (funext fun _ => ?_)
  change _ = Program.bind (Program.bind _ _) _
  rw [bind_assoc]
  rfl

namespace Network

variable {ι : Type} {N : Network ι} {i j : ι} {w : ι → Logs} {peer : PeerSpec} {head : TopicHead}

/-! ## What a pass achieves -/

/-- What an answer tells a task of daemon `i` of the logs of the network: how far
its own log reaches, which logs a peer has, and that a fetch by a daemon that is
behind brings something. -/
def Tells (N : Network ι) (i : ι) (w : ι → Logs) : (c : Command) → c.Answer → Prop
  | .store (.getHead topic origin), (answer : Except MsgbusError (Option HeadId)) =>
      ∀ stored, answer = .ok stored →
        (stored.getD 0).toNat ≤ ((w i).current (LogKey.of topic origin)).toNat
  | .store (.putReplicatedMessage m), (answer : Except MsgbusError ReplicateResult) =>
      ∀ result, answer = .ok result → m.headId.toNat ≤ ((w i).current m.log).toNat
  | .listHeads endpoint, (answer : Except Status (List Pb.TopicHead)) =>
      ∀ heads j, answer = .ok heads → N.resolve endpoint = some j →
        ∀ k, 0 < ((w j).current k).toNat → ∃ head : TopicHead, protoTopicHead head ∈ heads ∧
          head.origin.Valid ∧ LogKey.of head.topic head.origin = k ∧ (w j).current k = head.headId
  | .fetch endpoint request, (answer : Except Status (List Pb.FetchResponse × Option Status)) =>
      ∀ items j head localHead batchLimit, answer = .ok (items, none) →
        N.resolve endpoint = some j → request = fetchRequest head localHead batchLimit →
        ValidPart head.topic.value → head.origin.Valid →
        localHead < (w j).current (LogKey.of head.topic head.origin) →
          ∃ item ∈ items, ∃ envelope, item.message = some envelope ∧ localHead < envelope.headId
  | _, _ => True

def relying (N : Network ι) : Contract ι (ι → Logs) Command Command.Answer :=
  .ofAnswers Grown Grown.refl Grown.trans N.Tells

omit [Formats] in
theorem gives_callStoreText (op : StoreOp) :
    N.relying.Gives i (callStoreText op)
      (fun result w' => N.Tells i w' (.store op) (Except.ok result)) w := by
  have hcall : N.relying.Gives i (callStore op)
      (fun result w' => N.Tells i w' (.store op) (Except.ok result)) w := by
    refine gives_call fun answer w' _ hens => gives_ofExcept ?_
    rintro result rfl
    exact hens
  exact hcall.mapError

theorem gives_syncMessage (m : StoredMessage) :
    N.relying.Gives i (syncMessage peer head m)
      (fun _ w' => m.headId.toNat ≤ ((w' i).current (LogKey.of head.topic head.origin)).toNat) w := by
  by_cases hmatch : m.topic = head.topic ∧ m.origin = head.origin
  · rw [syncMessage_eq hmatch.1 hmatch.2]
    refine (gives_callStoreText _).bind fun result w' _ hput => ?_
    refine (gives_trivial _).mono fun _ w'' hw'' _ => ?_
    have hle := hput result rfl
    rw [StoredMessage.log, hmatch.1, hmatch.2] at hle
    exact hle.trans ((hw'' i).head _)
  · rw [syncMessage, if_pos (not_and_or.mp hmatch)]
    exact gives_fail _

/-- A stream that was received to its end: the local head has moved past every
message, and as far as the log reaches at most. -/
theorem gives_receive (last : Option Status) {start : UInt64} (items : List Pb.FetchResponse)
    (localHead : { localHead : UInt64 // start ≤ localHead }) (fetched : UInt32)
    (hlocal : localHead.1.toNat ≤ ((w i).current (LogKey.of head.topic head.origin)).toNat) :
    N.relying.Gives i (receive peer head last items localHead fetched)
      (fun result w' => last = none ∧ localHead.1.toNat ≤ result.1.1.toNat ∧
        result.1.1.toNat ≤ ((w' i).current (LogKey.of head.topic head.origin)).toNat ∧
        (fetched ≠ 0 → result.2 ≠ 0) ∧
        ∀ item ∈ items, ∀ envelope, item.message = some envelope →
          envelope.headId.toNat ≤ result.1.1.toNat ∧ result.2 ≠ 0) w := by
  induction items generalizing w localHead fetched with
  | nil =>
      unfold receive
      cases last with
      | none =>
          refine gives_ret ⟨rfl, Nat.le_refl _, hlocal, id, ?_⟩
          exact fun item hitem => absurd hitem List.not_mem_nil
      | some status => exact gives_fail _
  | cons item rest ih =>
      unfold receive
      cases hitem : item.message with
      | none =>
          refine (ih localHead fetched hlocal).mono ?_
          rintro result w' - ⟨hlast, hle, hreached, hfetched, hrest⟩
          refine ⟨hlast, hle, hreached, hfetched, List.forall_mem_cons.mpr ⟨?_, hrest⟩⟩
          intro envelope henvelope
          rw [hitem] at henvelope
          cases henvelope
      | some envelope =>
          refine (gives_ofExcept (Q := fun m _ => coreMessage envelope = .ok m) ?_).bind ?_
          · exact fun m hm => Except.mapError_eq_ok.mp hm
          intro m w₁ hw₁ hm
          refine (gives_syncMessage m).bind fun _ w₂ hw₂ htaken => ?_
          have hmax : (max localHead.1 m.headId).toNat ≤
              ((w₂ i).current (LogKey.of head.topic head.origin)).toNat := by
            have hgrown := ((Grown.trans hw₁ hw₂) i).head (LogKey.of head.topic head.origin)
            rw [UInt64.toNat_max]
            omega
          refine (ih ⟨max localHead.1 m.headId, _⟩ (fetched.saturatingAdd 1) hmax).mono ?_
          rintro result w' - ⟨hlast, hle, hreached, hfetched, hrest⟩
          have hcounted := hfetched (UInt32.saturatingAdd_one_ne_zero fetched)
          rw [UInt64.toNat_max] at hle
          refine ⟨hlast, by omega, hreached, fun _ => hcounted, List.forall_mem_cons.mpr ⟨?_, hrest⟩⟩
          intro envelope' henvelope
          rw [hitem] at henvelope
          cases henvelope
          rw [← headId_of_coreMessage hm]
          exact ⟨by omega, hcounted⟩

theorem gives_syncLoop (hresolve : N.resolve peer.endpoint = some j)
    (htopic : ValidPart head.topic.value) (horigin : head.origin.Valid)
    (hpeer : head.headId.toNat ≤ ((w j).current (LogKey.of head.topic head.origin)).toNat)
    (batchLimit : UInt32) (localHead : UInt64)
    (hlocal : localHead.toNat ≤ ((w i).current (LogKey.of head.topic head.origin)).toNat) :
    N.relying.Gives i (syncLoop peer head batchLimit localHead)
      (fun _ w' => head.headId.toNat ≤
        ((w' i).current (LogKey.of head.topic head.origin)).toNat) w := by
  induction hleft : 2 ^ 64 - localHead.toNat using Nat.strong_induction_on
    generalizing localHead w with
  | h left ih =>
      rw [syncLoop]
      split_ifs with hbehind
      · refine gives_call fun answer w₁ hw₁ htold => ?_
        refine (gives_ofExcept (Q := fun pair _ => answer = .ok pair) ?_).bind ?_
        · exact fun pair hpair => Except.mapError_eq_ok.mp hpair
        rintro ⟨items, last⟩ w₂ hw₂ rfl
        have hgrown := (Grown.trans hw₁ hw₂ i).head (LogKey.of head.topic head.origin)
        refine (gives_receive last items ⟨localHead, UInt64.le_refl _⟩ 0
          (hlocal.trans hgrown)).bind ?_
        rintro ⟨reached, fetched⟩ w₃ hw₃ ⟨rfl, hle, hreached, -, hitems⟩
        refine (gives_trivial _).bind fun _ w₄ hw₄ _ => ?_
        have hlt := UInt64.lt_iff_toNat_lt.mp hbehind
        have hpeer₁ := hpeer.trans ((hw₁ j).head (LogKey.of head.topic head.origin))
        -- The peer held more when it answered, so the loop does not stop here.
        obtain ⟨item, hmem, envelope, henvelope, hnew⟩ := htold items j head localHead batchLimit rfl
          hresolve rfl htopic horigin (UInt64.lt_iff_toNat_lt.mpr (by omega))
        obtain ⟨hpast, hfetched⟩ := hitems item hmem envelope henvelope
        dsimp only at hpast hreached
        have hnew' := UInt64.lt_iff_toNat_lt.mp hnew
        have hne : reached.1 ≠ localHead := by
          intro hsame
          rw [hsame] at hpast
          omega
        rw [dif_neg (not_or.mpr ⟨hfetched, hne⟩)]
        have hbound := UInt64.toNat_lt reached.1
        refine ih _ ?_ ?_ reached.1 ?_ rfl
        · omega
        · exact hpeer₁.trans ((Grown.trans hw₂ (Grown.trans hw₃ hw₄) j).head _)
        · exact hreached.trans ((hw₄ i).head _)
      · refine gives_ret ?_
        have hle := UInt64.le_iff_toNat_le.mp (UInt64.not_lt.mp hbehind)
        omega

theorem gives_syncHead (hresolve : N.resolve peer.endpoint = some j)
    (htopic : ValidPart head.topic.value) (horigin : head.origin.Valid)
    (hpeer : head.headId.toNat ≤ ((w j).current (LogKey.of head.topic head.origin)).toNat)
    (batchLimit : UInt32) :
    N.relying.Gives i (syncHead peer head batchLimit)
      (fun _ w' => head.headId.toNat ≤
        ((w' i).current (LogKey.of head.topic head.origin)).toNat) w := by
  refine (gives_callStoreText _).bind fun (stored : Option HeadId) w₁ hw₁ hstored => ?_
  have hpeer₁ := hpeer.trans ((hw₁ j).head (LogKey.of head.topic head.origin))
  refine (gives_syncLoop hresolve htopic horigin hpeer₁ batchLimit _ (hstored stored rfl)).bind
    fun localHead w₂ hw₂ hreached => ?_
  refine (gives_trivial _).mono fun _ w₃ hw₃ _ => ?_
  exact hreached.trans ((hw₃ i).head _)

theorem gives_syncHeads (hresolve : N.resolve peer.endpoint = some j) (batchLimit : UInt32)
    (heads : List Pb.TopicHead) :
    N.relying.Gives i (syncHeads peer batchLimit heads)
      (fun _ w' => ∀ head : TopicHead, protoTopicHead head ∈ heads → head.origin.Valid →
        head.headId.toNat ≤ ((w j).current (LogKey.of head.topic head.origin)).toNat →
        head.headId.toNat ≤ ((w' i).current (LogKey.of head.topic head.origin)).toNat) w := by
  induction heads generalizing w with
  | nil =>
      unfold syncHeads
      exact gives_ret fun head hmem => absurd hmem List.not_mem_nil
  | cons listed rest ih =>
      unfold syncHeads
      refine (gives_ofExcept (Q := fun head _ => coreTopicHead listed = .ok head) ?_).bind ?_
      · exact fun head hhead => Except.mapError_eq_ok.mp hhead
      intro head w₁ hw₁ hhead
      have hsync : N.relying.Gives i (syncHead peer head batchLimit)
          (fun _ w' => head.origin.Valid →
            head.headId.toNat ≤ ((w j).current (LogKey.of head.topic head.origin)).toNat →
            head.headId.toNat ≤ ((w' i).current (LogKey.of head.topic head.origin)).toNat) w₁ := by
        by_cases hheld : head.origin.Valid ∧
            head.headId.toNat ≤ ((w j).current (LogKey.of head.topic head.origin)).toNat
        · have hpeer := hheld.2.trans ((hw₁ j).head _)
          exact (gives_syncHead hresolve (validPart_of_coreTopicHead hhead) hheld.1 hpeer
            batchLimit).mono fun _ _ _ hreached _ _ => hreached
        · exact (gives_trivial _).mono fun _ _ _ _ hvalid hpeer => absurd ⟨hvalid, hpeer⟩ hheld
      refine hsync.attempt.bind ?_
      rintro (err | u) w₂ hw₂ hreached
      · refine (gives_trivial _).bind fun stored w₃ _ _ => ?_
        exact (gives_trivial _).bind fun _ w₄ _ _ => gives_fail err
      · refine ih.mono fun _ w₃ hw₃ hrest head' hmem horigin hpeer => ?_
        rcases List.mem_cons.mp hmem with rfl | hmem
        · cases coreTopicHead_protoTopicHead_eq hhead
          exact (hreached () rfl horigin hpeer).trans ((hw₃ i).head _)
        · exact hrest head' hmem horigin (hpeer.trans ((Grown.trans hw₁ hw₂ j).head _))

theorem gives_visitPeer (hresolve : N.resolve peer.endpoint = some j) (localNode : NodeId)
    (batchLimit : UInt32) :
    N.relying.Gives i (visitPeer localNode peer batchLimit)
      (fun _ w' => ∀ k, ((w j).current k).toNat ≤ ((w' i).current k).toNat) w := by
  refine (gives_trivial _).bind fun _ w₁ hw₁ _ => ?_
  refine (gives_trivial _).bind fun _ w₂ hw₂ _ => ?_
  have hlist : N.relying.Gives i (callListHeads peer)
      (fun heads w' => N.Tells i w' (.listHeads peer.endpoint) (Except.ok heads)) w₂ := by
    refine gives_call fun answer w' _ hens => gives_ofExcept ?_
    intro heads hheads
    rw [← Except.mapError_eq_ok.mp hheads]
    exact hens
  refine hlist.bind fun heads w₃ hw₃ htold => ?_
  refine (gives_syncHeads hresolve batchLimit heads).mono fun _ w₄ hw₄ hreached k => ?_
  have hbefore := (Grown.trans hw₁ (Grown.trans hw₂ hw₃) j).head k
  by_cases hnone : 0 < ((w₃ j).current k).toNat
  · obtain ⟨head, hmem, horigin, rfl, hcurrent⟩ := htold heads j rfl hresolve k hnone
    have hgot := hreached head hmem horigin (by rw [hcurrent])
    rw [hcurrent] at hbefore
    omega
  · omega

theorem gives_visitPeer_resolved (localNode : NodeId) (peer : PeerSpec) (batchLimit : UInt32) :
    N.relying.Gives i (visitPeer localNode peer batchLimit)
      (fun _ w' => ∀ j, N.resolve peer.endpoint = some j →
        ∀ k, ((w j).current k).toNat ≤ ((w' i).current k).toNat) w := by
  cases hresolve : N.resolve peer.endpoint with
  | none => exact (gives_trivial _).mono fun _ _ _ _ j hj => by cases hj
  | some j =>
      refine (gives_visitPeer hresolve _ _).mono fun _ w' _ hheld j' hj' => ?_
      cases hj'
      exact hheld

theorem gives_syncPeer (localNode : NodeId) (peer : PeerSpec) (batchLimit : UInt32) :
    N.relying.Gives i (syncPeer localNode peer batchLimit)
      (fun _ w' => ∀ j, N.resolve peer.endpoint = some j →
        ∀ k, ((w j).current k).toNat ≤ ((w' i).current k).toNat) w := by
  rw [syncPeer_eq]
  refine (gives_visitPeer_resolved localNode peer batchLimit).bind fun _ w₁ _ hheld => ?_
  refine (gives_trivial _).mono fun _ w₂ hw₂ _ j hj k => ?_
  exact (hheld j hj k).trans ((hw₂ i).head k)

/-- A pass that returns has brought what each of its peers held when it
started. -/
theorem gives_syncPeers (config : PeerSyncConfig) (peers : List PeerSpec)
    (firstError : Option String) :
    N.relying.Gives i (syncPeers config peers firstError)
      (fun _ w' => firstError = none ∧ ∀ peer ∈ peers, ∀ j, N.resolve peer.endpoint = some j →
        ∀ k, ((w j).current k).toNat ≤ ((w' i).current k).toNat) w := by
  induction peers generalizing w firstError with
  | nil =>
      unfold syncPeers
      cases firstError with
      | none => exact gives_ret ⟨rfl, fun peer hmem => absurd hmem List.not_mem_nil⟩
      | some error => exact gives_fail error
  | cons peer rest ih =>
      unfold syncPeers
      refine (gives_syncPeer _ peer _).attempt.bind ?_
      rintro (error | u) w₁ hw₁ hheld
      · refine (gives_trivial _).bind fun _ w₂ hw₂ _ => ?_
        refine (ih (firstError.or (some error))).mono fun _ w₃ _ hrest => ?_
        have hnone := hrest.1
        rw [Option.or_eq_none_iff] at hnone
        cases hnone.2
      · refine (ih firstError).mono fun _ w₃ hw₃ hrest => ⟨hrest.1, ?_⟩
        refine List.forall_mem_cons.mpr ⟨fun j hj k => ?_, fun peer' hmem j hj k => ?_⟩
        · exact (hheld () rfl j hj k).trans ((hw₃ i).head k)
        · exact ((hw₁ j).head k).trans (hrest.2 peer' hmem j hj k)

theorem gives_syncOnce (config : PeerSyncConfig) :
    N.relying.Gives i (syncOnce config)
      (fun _ w' => ∀ peer ∈ config.peers, ∀ j, N.resolve peer.endpoint = some j →
        ∀ k, ((w j).current k).toNat ≤ ((w' i).current k).toNat) w :=
  (gives_syncPeers config config.peers none).mono fun _ _ _ h => h.2

/-! ## The network tells the truth -/

open System

variable [DecidableEq ι]

theorem tells_of_answers {s s' : N.Stores} {c : Command} {answer : c.Answer} (hs : N.Agrees s)
    (h : N.Answers i s c answer s') : N.Tells i (N.view s') c answer := by
  cases c with
  | store op =>
      obtain ⟨t, hstore, rfl⟩ := h
      have hstored := storeAnswers_cases (hs.1 i) hstore
      cases op with
      | getHead topic origin =>
          rintro stored rfl
          rcases hstored with ⟨env, result, -, hresult, -, hread, hsame⟩ | ⟨⟨e, herror⟩, -⟩
          · cases hresult
            rw [view_update, Function.update_self, hread,
              show (N.storage i).logs t = (N.storage i).logs (s i) from hsame]
            exact Nat.le_refl _
          · cases herror
      | putReplicatedMessage m =>
          rintro result rfl
          rcases hstored with ⟨env, r, -, hr, -, hstep⟩ | ⟨⟨e, herror⟩, -⟩
          · rw [view_update, Function.update_self]
            exact Logs.headId_le_of_put (wellFormed_view hs.1 i) hstep
          · cases herror
      | _ => trivial
  | listHeads endpoint =>
      obtain ⟨rfl, hserves⟩ := h
      intro heads j hok hresolve k hpos
      obtain ⟨j', hj', hserve⟩ := hserves heads hok
      rw [hresolve] at hj'
      cases hj'
      have hwf := wellFormed_view hs.1 j
      obtain ⟨m, hm⟩ := Option.isSome_iff_exists.mp
        ((hwf.contiguous k ((N.view s' j).current k)).mpr ⟨hpos, Nat.le_refl _⟩)
      obtain ⟨head, hhead, rfl⟩ := (Logs.exists_isHead_iff hwf).mpr ⟨_, m, hm⟩
      obtain ⟨owner, howner, -⟩ := listed_of_isHead hs hhead
      refine ⟨head, mem_of_serves_listHeads (hs.1 j) hserve hhead, ?_, rfl, hhead.current_eq hwf⟩
      rw [howner]
      exact N.valid owner
  | fetch endpoint request =>
      obtain ⟨rfl, hserves⟩ := h
      rintro items j head localHead batchLimit hok hresolve rfl htopic horigin hbehind
      obtain ⟨j', all, hj', hserve, -, hall⟩ := hserves items none hok
      rw [hresolve] at hj'
      cases hj'
      have hwf := wellFormed_view hs.1 j
      rw [hall rfl, serves_fetch_eq (hs.1 j) htopic (Or.inl horigin) hserve]
      obtain ⟨count, hcount, -, hpositions, -⟩ :=
        Logs.page_next hwf (N.node j) batchLimit horigin hbehind
      have hnext : localHead.toNat + 1 ∈
          ((N.view s' j).page (fetchQuery (N.node j) head localHead batchLimit)).map
            (·.headId.toNat) := by
        rw [hpositions, List.mem_range'_1]
        omega
      obtain ⟨m, hm, hposition⟩ := List.mem_map.mp hnext
      refine ⟨_, List.mem_map_of_mem hm, protoMessage m, rfl, ?_⟩
      rw [UInt64.lt_iff_toNat_lt]
      change localHead.toNat < m.headId.toNat
      omega
  | _ => trivial

variable {Cond : ι → N.Stores → (c : Command) → c.Answer → Prop}
variable {a b c : State ι N.Stores Command Command.Answer}

theorem grown_of_reaches (hdistinct : N.Distinct)
    (hcond : ∀ i s c answer, Cond i s c answer → N.BelowLimit i s c answer)
    (hrun : (N.system.restrict Cond).Reaches (.init N.fresh) a)
    (hlater : (N.system.restrict Cond).Reaches a b) : Grown (N.view a.shared) (N.view b.shared) := by
  induction hlater with
  | refl => exact .refl _
  | tail hreach hstep ih =>
      have hkept := kept_of_reaches hdistinct hcond (hrun.trans hreach)
      exact ih.trans (hkept.later (honours hdistinct hcond) hstep)

/-- A pass that has returned `Ok` holds every log at least as far as each of its
peers did when the pass started. -/
theorem current_le_of_pass (hdistinct : N.Distinct)
    (hcond : ∀ i s c answer, Cond i s c answer → N.BelowLimit i s c answer)
    (hrun : (N.system.restrict Cond).Reaches (.init N.fresh) a) {config : PeerSyncConfig}
    (hlocal : config.localNode = N.node i)
    (hpass : (N.system.restrict Cond).Reaches
      ⟨a.shared, a.tasks ++ [(i, (syncOnce config).discard)]⟩ b)
    (hdone : b.tasks[a.tasks.length]? = some (i, .ret ())) (hpeer : peer ∈ config.peers)
    (hresolve : N.resolve peer.endpoint = some j) (k : LogKey) :
    ((N.view a.shared j).current k).toNat ≤ ((N.view b.shared i).current k).toNat := by
  have hstart : (N.system.restrict Cond).Step a
      ⟨a.shared, a.tasks ++ [(i, (syncOnce config).discard)]⟩ := .start (Starts.syncOnce _ hlocal)
  have hkept := kept_of_reaches hdistinct hcond (hrun.tail hstart)
  have htask : (a.tasks ++ [(i, (syncOnce config).discard)])[a.tasks.length]? =
      some (i, (syncOnce config).discard) := by
    rw [List.getElem?_append_right (Nat.le_refl _), Nat.sub_self]
    rfl
  have hall := hpass.gives (C := N.relying) N.view
    (Q := fun w' => ∀ peer ∈ config.peers, ∀ j, N.resolve peer.endpoint = some j → ∀ k,
      ((N.view a.shared j).current k).toNat ≤ ((w' i).current k).toNat)
    (fun w w' hgrown hheld peer hmem j hj k =>
      (hheld peer hmem j hj k).trans ((hgrown i).head k))
    (fun _ _ hP hstep => kept_step (fun _ _ w hstarts => meets_of_starts rfl hstarts w)
      (honours hdistinct hcond) hP hstep)
    (fun _ _ _ _ _ _ _ hP htask hanswer => ⟨hP.later (honours hdistinct hcond)
      (Step.answer htask hanswer), tells_of_answers hP.1 hanswer.2⟩)
    hkept htask (gives_syncOnce config).discard hdone
  exact hall peer hpeer j hresolve k

/-- What one daemon held at some moment is held, up to deleted flags, by any
daemon whose log has come as far since. -/
theorem message_of_current_le (hdistinct : N.Distinct)
    (hcond : ∀ i s c answer, Cond i s c answer → N.BelowLimit i s c answer)
    (hrun : (N.system.restrict Cond).Reaches (.init N.fresh) a)
    (hlater : (N.system.restrict Cond).Reaches a b) {k : LogKey}
    (hcurrent : ((N.view a.shared i).current k).toNat ≤ ((N.view b.shared j).current k).toNat)
    {n : HeadId} {m : StoredMessage} (hm : (N.view a.shared i).message k n = some m) :
    ∃ m', (N.view b.shared j).message k n = some m' ∧
      m'.withDeleted false = m.withDeleted false := by
  have hs := (kept_of_reaches hdistinct hcond hrun).1
  have hs' := (kept_of_reaches hdistinct hcond (hrun.trans hlater)).1
  have hbounds := ((wellFormed_view hs.1 i).contiguous k n).mp (by rw [hm]; rfl)
  obtain ⟨m', hm'⟩ := Option.isSome_iff_exists.mp (((wellFormed_view hs'.1 j).contiguous k n).mpr
    ⟨hbounds.1, hbounds.2.trans hcurrent⟩)
  obtain ⟨kept, hkept, hkeep⟩ :=
    (grown_of_reaches hdistinct hcond hrun hlater i).message k n m hm
  refine ⟨m', hm', (hs'.content_eq hdistinct hkept hm').trans ?_⟩
  rw [hkeep.1]
  rfl

theorem map_log_prefix_of_current_le (hdistinct : N.Distinct)
    (hrun : (N.system.restrict N.BelowLimit).Reaches (.init N.fresh) a)
    (hlater : (N.system.restrict N.BelowLimit).Reaches a b) {k : LogKey}
    (hcurrent : ((N.view a.shared i).current k).toNat ≤ ((N.view b.shared j).current k).toNat) :
    ((N.view a.shared i).log k).map (·.withDeleted false) <+:
      ((N.view b.shared j).log k).map (·.withDeleted false) := by
  have hs := (kept_of_reaches hdistinct (fun _ _ _ _ h => h) hrun).1
  have hs' := (kept_of_reaches hdistinct (fun _ _ _ _ h => h) (hrun.trans hlater)).1
  apply Logs.map_log_prefix (wellFormed_view hs.1 i) (wellFormed_view hs'.1 j)
  intro n m hm
  exact message_of_current_le hdistinct (fun _ _ _ _ h => h) hrun hlater hcurrent hm

/-! ## Chains of passes -/

/-- What daemon `i` holds at `a` has been handed on, pass by pass, to daemon `j`
at `b`: each pass starts after the one before it has returned, and has the
daemon of that one among its peers. -/
inductive Relayed (N : Network ι) (Cond : ι → N.Stores → (c : Command) → c.Answer → Prop) (i : ι)
    (a : State ι N.Stores Command Command.Answer) :
    ι → State ι N.Stores Command Command.Answer → Prop where
  | held : Relayed N Cond i a i a
  | waits {j : ι} {b c : State ι N.Stores Command Command.Answer} (h : Relayed N Cond i a j b)
      (hrun : (N.system.restrict Cond).Reaches b c) : Relayed N Cond i a j c
  | pass {j x : ι} {b c : State ι N.Stores Command Command.Answer} {config : PeerSyncConfig}
      {peer : PeerSpec} (h : Relayed N Cond i a j b) (hlocal : config.localNode = N.node x)
      (hpeer : peer ∈ config.peers) (hresolve : N.resolve peer.endpoint = some j)
      (hrun : (N.system.restrict Cond).Reaches
        ⟨b.shared, b.tasks ++ [(x, (syncOnce config).discard)]⟩ c)
      (hdone : c.tasks[b.tasks.length]? = some (x, .ret ())) : Relayed N Cond i a x c

theorem Relayed.reaches (h : N.Relayed Cond i a j b) : (N.system.restrict Cond).Reaches a b := by
  induction h with
  | held => exact .refl
  | waits _ hrun ih => exact ih.trans hrun
  | pass _ hlocal _ _ hrun _ ih => exact (ih.tail (.start (Starts.syncOnce _ hlocal))).trans hrun

theorem Relayed.current_le (hdistinct : N.Distinct)
    (hcond : ∀ i s c answer, Cond i s c answer → N.BelowLimit i s c answer)
    (hrun : (N.system.restrict Cond).Reaches (.init N.fresh) a) (h : N.Relayed Cond i a j b)
    (k : LogKey) :
    ((N.view a.shared i).current k).toNat ≤ ((N.view b.shared j).current k).toNat := by
  induction h with
  | held => exact Nat.le_refl _
  | waits h hlater ih =>
      exact ih.trans (grown_of_reaches hdistinct hcond (hrun.trans h.reaches) hlater _ |>.head k)
  | pass h hlocal hpeer hresolve hpass hdone ih =>
      exact ih.trans (current_le_of_pass hdistinct hcond (hrun.trans h.reaches) hlocal hpass hdone
        hpeer hresolve k)

theorem Relayed.message (hdistinct : N.Distinct)
    (hcond : ∀ i s c answer, Cond i s c answer → N.BelowLimit i s c answer)
    (hrun : (N.system.restrict Cond).Reaches (.init N.fresh) a) (h : N.Relayed Cond i a j b)
    {k : LogKey} {n : HeadId} {m : StoredMessage} (hm : (N.view a.shared i).message k n = some m) :
    ∃ m', (N.view b.shared j).message k n = some m' ∧
      m'.withDeleted false = m.withDeleted false :=
  message_of_current_le hdistinct hcond hrun h.reaches (h.current_le hdistinct hcond hrun k) hm

/-- In every run below the counter limit, whatever a daemon held at some moment
has arrived, up to deleted flags, wherever a chain of passes that returned `Ok`
has led since: over any number of daemons, with any other tasks running between
any two calls of the passes. -/
theorem relayed_prefix (hdistinct : N.Distinct)
    (hrun : (N.system.restrict N.BelowLimit).Reaches (.init N.fresh) a)
    (h : N.Relayed N.BelowLimit i a j b) (k : LogKey) :
    ((N.view a.shared i).log k).map (·.withDeleted false) <+:
      ((N.view b.shared j).log k).map (·.withDeleted false) :=
  map_log_prefix_of_current_le hdistinct hrun h.reaches
    (h.current_le hdistinct (fun _ _ _ _ h => h) hrun k)

theorem exists_relayed {Cond : Bool → (pair .redb).Stores → (c : Command) → c.Answer → Prop}
    (hcond : ∀ i s c answer, Cond i s c answer → (pair .redb).BelowLimit i s c answer)
    (hlenient : ∀ i s (c : Command) (answer : c.Answer),
      (∀ op, c = .store op → op.appendsTo = none) → c.Completes answer → Cond i s c answer)
    {a : State Bool (pair .redb).Stores Command Command.Answer}
    (hrun : ((pair .redb).system.restrict Cond).Reaches (.init (pair .redb).fresh) a) :
    ∃ b, (pair .redb).Relayed Cond true a false b ∧ b.tasks = a.tasks ++ [(false, .ret ())] ∧
      (pair .redb).view b.shared true = (pair .redb).view a.shared true := by
  let config : PeerSyncConfig := ⟨(pair .redb).node false, [⟨"peer", none⟩], 0⟩
  have hlocal : config.localNode = (pair .redb).node false := rfl
  obtain ⟨b, hpass, htasks, hview⟩ := exists_pass (distinct_pair .redb) (by decide) hcond hlenient
    hrun hlocal (List.forall_mem_singleton.mpr ⟨true, peers_pair⟩)
  refine ⟨b, Relayed.pass .held hlocal (List.mem_singleton_self _) peers_pair.1 hpass ?_, htasks, ?_⟩
  · rw [htasks, List.getElem?_append_right (Nat.le_refl _), Nat.sub_self]
    rfl
  · rw [hview]
    rfl

omit [Formats] in
theorem relayed_prefix_pair : letI := Serde.formats
    ∃ a b, ((pair .redb).system.restrict (pair .redb).BelowLimit).Reaches
        (.init (pair .redb).fresh) a ∧
      (pair .redb).Relayed (pair .redb).BelowLimit true a false b ∧
      (((pair .redb).view a.shared true).message entryLog 1).isSome ∧
      (((pair .redb).view a.shared true).log entryLog).map (·.withDeleted false) <+:
        (((pair .redb).view b.shared false).log entryLog).map (·.withDeleted false) := by
  let := Serde.formats
  obtain ⟨a, hrun, ha⟩ := exists_publishedOnce lenient_belowLimit (permits_belowLimit (by decide))
  obtain ⟨b, hrelayed, -⟩ := exists_relayed (fun _ _ _ _ h => h)
    (fun _ _ _ _ happends _ => belowLimit_of_appends happends) hrun
  refine ⟨a, b, hrun, hrelayed, ?_, relayed_prefix (distinct_pair .redb) hrun hrelayed entryLog⟩
  rw [ha.1.2]
  exact congrArg Option.isSome (message_filled_succ 0)

/-! ## Deletes along a chain -/

/-- A delete that the owner had accepted has arrived as a live marker. -/
theorem Relayed.marker (hdistinct : N.Distinct)
    (hcond : ∀ i s c answer, Cond i s c answer → N.BelowLimit i s c answer)
    (hrun : (N.system.restrict Cond).Reaches (.init N.fresh) a) (h : N.Relayed Cond i a j b)
    {n : HeadId} {m : StoredMessage}
    (hm : (N.view a.shared i).message (LogKey.of deleteTopic (N.node i)) n = some m) :
    (N.view b.shared j).message (LogKey.of deleteTopic (N.node i)) n = some m ∧
      m.deleted = false ∧ m.origin = N.node i := by
  have hs := (kept_of_reaches hdistinct hcond hrun).1
  have hs' := (kept_of_reaches hdistinct hcond (hrun.trans h.reaches)).1
  obtain ⟨m', hm', hcontent⟩ := h.message hdistinct hcond hrun hm
  obtain ⟨hpos, hlog⟩ := (wellFormed_view hs'.1 j).positioned _ n m' hm'
  have howner : m'.log.origin = (N.node i).key := by
    rw [hlog]
    rfl
  obtain ⟨horigin, owned, howned, hkeep⟩ := (hs'.2.1.vouched j _ n m' hm').at_owner hdistinct howner
  rw [hlog, hpos] at howned
  have hlive := hs.marker_live hm
  -- The owner never flags its markers, so no copy of one is flagged either.
  have hlive' : m'.deleted = false := by
    rw [hkeep.eq_of_not_deleted (hs'.marker_live howned)]
    exact hs'.marker_live howned
  have heq : m' = m := by
    rw [← StoredMessage.withDeleted_of_eq hlive, ← StoredMessage.withDeleted_of_eq hlive']
    exact hcontent
  subst heq
  exact ⟨hm', hlive, horigin⟩

/-- A position that the owner had flagged is flagged where the chain has led, once
no marker waits to be applied there. -/
theorem Relayed.deleted (hdistinct : N.Distinct)
    (hrun : (N.system.restrict N.Succeeding).Reaches (.init N.fresh) a)
    (h : N.Relayed N.Succeeding i a j b)
    (hquiet : ∀ range, ¬ b.AboutTo j (.store (TombstoneRange.op range))) {topic : Topic}
    {n : HeadId} {m m' : StoredMessage}
    (hm : (N.view a.shared i).message (LogKey.of topic (N.node i)) n = some m)
    (hdeleted : m.deleted = true)
    (hm' : (N.view b.shared j).message (LogKey.of topic (N.node i)) n = some m') :
    m'.deleted = true := by
  have hcond : ∀ i s c answer, N.Succeeding i s c answer → N.BelowLimit i s c answer :=
    fun _ _ _ _ h => h.1
  have hs := (kept_of_reaches hdistinct hcond hrun).1
  obtain ⟨hs', happlied⟩ := markersApplied_of_reaches hdistinct (hrun.trans h.reaches)
  -- The owner flagged the message for a range, which it had issued as a marker.
  obtain ⟨first, last, hrange, hfirst, hlast⟩ := hs.2.1.owned i _ n m rfl hm hdeleted
  obtain ⟨c, marker, range, hmarker, hslice, hop⟩ := hs.2.2.issued i _ _ _ rfl hrange
  obtain ⟨htopic, horigin, hfrom, hto⟩ := StoreOp.tombstoneRange.inj hop
  obtain ⟨hheld, hlive, hnode⟩ := h.marker hdistinct hcond hrun hmarker
  have hmarks : marker.Marks range := by
    refine StoredMessage.marks_iff.mpr ⟨?_, hlive, hslice, by rw [hnode, horigin]⟩
    exact congrArg LogKey.topic ((wellFormed_view hs'.1 j).positioned _ _ _ hheld).2
  rcases happlied j _ _ marker range hheld hmarks with hrecorded | habout
  · rw [htopic, horigin, hfrom, hto] at hrecorded
    exact (wellFormed_view hs'.1 j).covered _ n m' hm' ⟨first, last, hrecorded, hfirst, hlast⟩
  · exact absurd habout (hquiet range)

theorem Relayed.between (hdistinct : N.Distinct)
    (hrun : (N.system.restrict N.Succeeding).Reaches (.init N.fresh) a)
    (h : N.Relayed N.Succeeding i a j b)
    (hquiet : ∀ range, ¬ b.AboutTo j (.store (TombstoneRange.op range))) {topic : Topic}
    {n : HeadId} {m : StoredMessage}
    (hm : (N.view a.shared i).message (LogKey.of topic (N.node i)) n = some m) :
    ∃ m₁ m₂, (N.view b.shared j).message (LogKey.of topic (N.node i)) n = some m₁ ∧
      (N.view b.shared i).message (LogKey.of topic (N.node i)) n = some m₂ ∧
      m.Keeps m₁ ∧ m₁.Keeps m₂ := by
  have hcond : ∀ i s c answer, N.Succeeding i s c answer → N.BelowLimit i s c answer :=
    fun _ _ _ _ h => h.1
  have hs' := (kept_of_reaches hdistinct hcond (hrun.trans h.reaches)).1
  obtain ⟨m₁, hm₁, hcontent⟩ := h.message hdistinct hcond hrun hm
  obtain ⟨m₂, hm₂, hkeep⟩ := hs'.message_at_owner hdistinct hm₁
  refine ⟨m₁, m₂, hm₁, hm₂, ⟨?_, fun hdeleted => ?_⟩, hkeep⟩
  · have hsame := congrArg (·.withDeleted m₁.deleted) hcontent
    exact hsame
  · exact h.deleted hdistinct hrun hquiet hm hdeleted hm₁

theorem Relayed.log_eq (hdistinct : N.Distinct)
    (hrun : (N.system.restrict N.Succeeding).Reaches (.init N.fresh) a)
    (h : N.Relayed N.Succeeding i a j b)
    (hquiet : ∀ range, ¬ b.AboutTo j (.store (TombstoneRange.op range))) {topic : Topic}
    (hunchanged : (N.view b.shared i).log (LogKey.of topic (N.node i)) =
      (N.view a.shared i).log (LogKey.of topic (N.node i))) :
    (N.view b.shared j).log (LogKey.of topic (N.node i)) =
      (N.view b.shared i).log (LogKey.of topic (N.node i)) := by
  have hcond : ∀ i s c answer, N.Succeeding i s c answer → N.BelowLimit i s c answer :=
    fun _ _ _ _ h => h.1
  have hs := (kept_of_reaches hdistinct hcond hrun).1
  have hs' := (kept_of_reaches hdistinct hcond (hrun.trans h.reaches)).1
  have hwf := wellFormed_view hs.1
  have hwf' := wellFormed_view hs'.1
  have hback : ∀ n m₂, (N.view b.shared i).message (LogKey.of topic (N.node i)) n = some m₂ →
      (N.view b.shared j).message (LogKey.of topic (N.node i)) n = some m₂ := by
    intro n m₂ hm₂
    have hold : (N.view a.shared i).message (LogKey.of topic (N.node i)) n = some m₂ := by
      obtain ⟨hget, hpos⟩ := Logs.log_getElem?_of_message (hwf' i) hm₂
      rw [hunchanged, Logs.log_getElem?_pred (hwf i) hpos] at hget
      exact hget
    obtain ⟨m₁, m₂', hm₁, hm₂', hkeep, hkeep'⟩ := h.between hdistinct hrun hquiet hold
    rw [hm₂] at hm₂'
    cases hm₂'
    rw [hm₁, hkeep.antisymm hkeep']
  have hprefix := Logs.map_log_prefix (f := id) (k := LogKey.of topic (N.node i)) (hwf' i) (hwf' j)
    fun n m₂ hm₂ => ⟨m₂, hback n m₂ hm₂, rfl⟩
  have hprefix' := Logs.map_log_prefix (f := id) (k := LogKey.of topic (N.node i)) (hwf' j) (hwf' i)
    fun n m₁ hm₁ => by
      obtain ⟨m₂, hm₂, -⟩ := hs'.message_at_owner hdistinct hm₁
      have hsame := hback n m₂ hm₂
      rw [hm₁] at hsame
      cases hsame
      exact ⟨m₁, hm₂, rfl⟩
  rw [List.map_id, List.map_id] at hprefix hprefix'
  exact hprefix'.eq_of_length_le hprefix.length_le

/-- In every run below the counter limit in which store calls succeed: where a
chain of passes has led from an owner, and no marker waits to be applied, each
entry lies between the owner's entry then and the owner's entry now, deleted flag
included.  So if the owner's log has not changed since, the copy is equal to it. -/
theorem relayed_between (hdistinct : N.Distinct)
    (hrun : (N.system.restrict N.Succeeding).Reaches (.init N.fresh) a)
    (h : N.Relayed N.Succeeding i a j b)
    (hquiet : ∀ range, ¬ b.AboutTo j (.store (TombstoneRange.op range))) (topic : Topic) :
    (∀ n m, (N.view a.shared i).message (LogKey.of topic (N.node i)) n = some m →
      ∃ m₁ m₂, (N.view b.shared j).message (LogKey.of topic (N.node i)) n = some m₁ ∧
        (N.view b.shared i).message (LogKey.of topic (N.node i)) n = some m₂ ∧
        m.Keeps m₁ ∧ m₁.Keeps m₂) ∧
    ((N.view b.shared i).log (LogKey.of topic (N.node i)) =
        (N.view a.shared i).log (LogKey.of topic (N.node i)) →
      (N.view b.shared j).log (LogKey.of topic (N.node i)) =
        (N.view b.shared i).log (LogKey.of topic (N.node i))) := by
  constructor
  · intro n m hm
    exact h.between hdistinct hrun hquiet hm
  · intro hunchanged
    exact h.log_eq hdistinct hrun hquiet hunchanged

omit [Formats] in
/-- A message that its owner has deleted is flagged at the daemon that the chain has
led to, and the copy of the log is equal to the owner's. -/
theorem relayed_between_removed : letI := Serde.formats
    ∃ a b m, ((pair .redb).system.restrict (pair .redb).Succeeding).Reaches
        (.init (pair .redb).fresh) a ∧
      (pair .redb).Relayed (pair .redb).Succeeding true a false b ∧
      ((pair .redb).view a.shared true).message entryLog 1 = some m ∧ m.deleted = true ∧
      (∃ m', ((pair .redb).view b.shared false).message entryLog 1 = some m' ∧
        m'.deleted = true) ∧
      ((pair .redb).view b.shared false).log entryLog =
        ((pair .redb).view b.shared true).log entryLog := by
  let := Serde.formats
  obtain ⟨a, hrun, ha⟩ := exists_removed (N := pair .redb) (x := true) rfl rfl roomy_succeeding
  obtain ⟨b, hrelayed, htasks, howner⟩ := exists_relayed (fun _ _ _ _ h => h.1)
    (fun _ _ c answer happends hcompletes =>
      ⟨belowLimit_of_appends happends, hcompletes.succeeds⟩) hrun
  have hended : ∀ t ∈ b.tasks, t.2.first = none := by
    rw [htasks]
    exact List.forall_mem_append.mpr ⟨ha.2, List.forall_mem_singleton.mpr rfl⟩
  obtain ⟨m, hm, hdeleted⟩ := deleted_removedLogs
  have hmessage : ((pair .redb).view a.shared true).message entryLog 1 = some m := by
    rw [ha.1.2]
    exact hm
  obtain ⟨hbetween, hequal⟩ := relayed_between (distinct_pair .redb) hrun hrelayed
    (fun range => State.not_aboutTo_of_ended hended) ⟨"t"⟩
  obtain ⟨m₁, -, hm₁, -, hkeep, -⟩ := hbetween 1 m hmessage
  exact ⟨a, b, m, hrun, hrelayed, hmessage, hdeleted, ⟨m₁, hm₁, hkeep.2 hdeleted⟩,
    hequal (by rw [howner])⟩

end Network

end Msgbus

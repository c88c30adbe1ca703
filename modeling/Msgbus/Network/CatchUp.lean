import Msgbus.Isolation
import Msgbus.Network.Runs
import Msgbus.Server.Progress

/-!
# A pass catches up

What the loops of `sync_peer` and `sync_head` do when all calls succeed: message
by message, batch by batch and log by log they move the daemon to the next value
of `caughtTo`, unless a log holds messages of another origin than the peer listed.
-/

namespace Msgbus

open Program

variable [Formats]

/-! ## Calls that succeed -/

/-- The store carries out the call, and a stream is received to its end. -/
def Command.Completes : (c : Command) → c.Answer → Prop
  | store _, answer => ∃ result, answer = Except.ok result
  | fetch _ _, answer => ∃ items, answer = Except.ok (items, none)
  | _, _ => True

/-- What honest daemons store: names that their constructors let through, and
delete markers made by `delete_range`. -/
structure Logs.Honest (b : Logs) : Prop where
  topic : ∀ k n m, b.message k n = some m → ValidPart m.topic.value
  id : ∀ k n m, b.message k n = some m → ValidPart m.id.value
  origin : ∀ k n m, b.message k n = some m → m.origin.Valid ∨ m.origin.isEmpty = true
  marker : ∀ k n m, b.message k n = some m → m.topic = deleteTopic → ∃ topic first last env,
    first ≤ last ∧
      m.payload = (Logs.marker topic m.origin first last deleteTopic m.origin env).payload

theorem Logs.honest_empty : Logs.empty.Honest where
  topic := fun _ _ _ hm => absurd hm (by simp [Logs.empty])
  id := fun _ _ _ hm => absurd hm (by simp [Logs.empty])
  origin := fun _ _ _ hm => absurd hm (by simp [Logs.empty])
  marker := fun _ _ _ hm => absurd hm (by simp [Logs.empty])

theorem Logs.Honest.write {b : Logs} (hb : b.Honest) {k : LogKey} {n : HeadId} {m : StoredMessage}
    (htopic : ValidPart m.topic.value) (hid : ValidPart m.id.value)
    (horigin : m.origin.Valid ∨ m.origin.isEmpty = true) (happlication : m.topic ≠ deleteTopic) :
    (b.write k n m).Honest := by
  have hcases : ∀ k' n' m', (b.write k n m).message k' n' = some m' →
      m' = m ∨ b.message k' n' = some m' := by
    intro k' n' m' hm'
    rw [Logs.write_message] at hm'
    split_ifs at hm' with hnew
    · exact Or.inl (Option.some.inj hm').symm
    · exact Or.inr hm'
  constructor
  · intro k' n' m' hm'
    rcases hcases k' n' m' hm' with rfl | hold
    · exact htopic
    · exact hb.topic k' n' m' hold
  · intro k' n' m' hm'
    rcases hcases k' n' m' hm' with rfl | hold
    · exact hid
    · exact hb.id k' n' m' hold
  · intro k' n' m' hm'
    rcases hcases k' n' m' hm' with rfl | hold
    · exact horigin
    · exact hb.origin k' n' m' hold
  · intro k' n' m' hm' hdelete
    rcases hcases k' n' m' hm' with rfl | hold
    · exact absurd hdelete happlication
    · exact hb.marker k' n' m' hold hdelete

theorem Logs.Honest.controlRange {b : Logs} (hb : b.Honest) {k : LogKey} {n : HeadId}
    {m : StoredMessage} (hm : b.message k n = some m) :
    Msgbus.controlRange m = .ok none ∨ ∃ range, Msgbus.controlRange m = .ok (some range) ∧
      range.fromHeadId ≤ range.toHeadId := by
  by_cases hskip : m.topic ≠ deleteTopic ∨ m.deleted = true
  · exact Or.inl (if_pos hskip)
  · obtain ⟨htopic, hlive⟩ := not_or.mp hskip
    rw [not_not] at htopic
    obtain ⟨topic, first, last, env, hle, hpayload⟩ := hb.marker k n m hm htopic
    refine Or.inr ⟨⟨topic, m.origin, first, last, env.now⟩, ?_, hle⟩
    refine StoredMessage.marks_iff.mpr ⟨htopic, Bool.eq_false_iff.mpr hlive, ?_, rfl⟩
    rw [hpayload]
    exact Formats.tombstoneRange.fromSlice_toVec _

theorem Logs.Honest.of_isHead {b : Logs} {head : TopicHead} (hb : b.Honest) (h : b.IsHead head) :
    ValidPart head.topic.value ∧ (head.origin.Valid ∨ head.origin.isEmpty = true) := by
  obtain ⟨k, m, -, hm, htopic, horigin⟩ := h
  rw [htopic, horigin]
  exact ⟨hb.topic k _ m hm, hb.origin k _ m hm⟩

/-- The new messages of a listed log, if there are any, are all of the origin
that is listed, and it is not empty. -/
def Logs.Replicable (mine peer : Logs) (head : TopicHead) : Prop :=
  mine.current (LogKey.of head.topic head.origin) < head.headId → head.origin.isEmpty = false ∧
    ∀ n m, mine.current (LogKey.of head.topic head.origin) < n →
      peer.message (LogKey.of head.topic head.origin) n = some m → m.origin = head.origin

/-- What becomes of a listed log when nothing fails: it is replicated if it can
be, and a log without an origin may be left alone. -/
def Logs.Handles (mine peer : Logs) (reached reached' : LogKey → HeadId) (head : TopicHead) : Prop :=
  (Logs.Replicable mine peer head ∧ reached' (LogKey.of head.topic head.origin) =
      max (reached (LogKey.of head.topic head.origin)) head.headId) ∨
    (head.origin.isEmpty = true ∧ ¬ Logs.Replicable mine peer head ∧
      reached' (LogKey.of head.topic head.origin) = reached (LogKey.of head.topic head.origin))

theorem Logs.Honest.decodes {b : Logs} (hb : b.Honest) (hwf : b.WellFormed) {k : LogKey} {n : HeadId}
    {m : StoredMessage} (hm : b.message k n = some m) : coreMessage (protoMessage m) = .ok m := by
  refine coreMessage_protoMessage (hb.origin k n m hm) ?_ (hb.id k n m hm) (hb.topic k n m hm)
  intro hzero
  have hpos := ((hwf.contiguous k n).mp (by rw [hm]; rfl)).1
  rw [← (hwf.positioned k n m hm).1, hzero] at hpos
  cases hpos

theorem receive_cons {spec : PeerSpec} {head : TopicHead} {last : Option Status}
    {m : StoredMessage} {rest : List Pb.FetchResponse} {start : UInt64}
    {localHead : { localHead : UInt64 // start ≤ localHead }} {fetched : UInt32}
    (h : coreMessage (protoMessage m) = .ok m) :
    receive spec head last (⟨some (protoMessage m)⟩ :: rest) localHead fetched =
      syncMessage spec head m >>= fun _ => receive spec head last rest
        ⟨max localHead.1 m.headId, UInt64.le_trans localHead.2 (UInt64.le_max_left _ _)⟩
        (fetched.saturatingAdd 1) := by
  rw [receive]
  change (ofExcept ((coreMessage (protoMessage m)).mapError Formats.statusText) >>= _) = _
  rw [h]
  rfl

def Logs.page (b : Logs) (query : FetchQuery) : List StoredMessage :=
  b.window (LogKey.of query.topic query.origin) query.fromHeadId (effectiveLimit query.limit)

omit [Formats] in
theorem Logs.page_next {b : Logs} (hb : b.WellFormed) (node : NodeId) {head : TopicHead}
    {localHead : UInt64} (batchLimit : UInt32) (horigin : head.origin.Valid)
    (hbehind : localHead < b.current (LogKey.of head.topic head.origin)) :
    ∃ count, 0 < count ∧
      localHead.toNat + count ≤ (b.current (LogKey.of head.topic head.origin)).toNat ∧
      (b.page (fetchQuery node head localHead batchLimit)).map (·.headId.toNat) =
        List.range' (localHead.toNat + 1) count ∧
      ∀ m ∈ b.page (fetchQuery node head localHead batchLimit),
        b.message (LogKey.of head.topic head.origin) m.headId = some m := by
  have hlt := UInt64.lt_iff_toNat_lt.mp hbehind
  have hlimit := effectiveLimit_pos (max batchLimit 1)
  have hfirst : (max (localHead.saturatingAdd 1) 1).toNat = localHead.toNat + 1 := by
    have hcurrent := UInt64.toNat_lt (b.current (LogKey.of head.topic head.origin))
    rw [UInt64.toNat_max, UInt64.toNat_saturatingAdd_one, UInt64.toNat_one]
    omega
  have hpositive : 1 ≤ (max (localHead.saturatingAdd 1) 1).toNat := by
    rw [hfirst]
    omega
  have hpositions := Logs.map_headId_window (k := LogKey.of head.topic head.origin) hb hpositive
    (effectiveLimit (max batchLimit 1))
  rw [hfirst] at hpositions
  rw [fetchQuery_of_valid node localHead batchLimit horigin]
  refine ⟨_, ?_, ?_, hpositions, ?_⟩
  · omega
  · omega
  · exact fun m hm => Logs.message_of_mem_window hb hm

theorem serves_fetch_eq {σ : Type} [Backend σ] {s : σ} {node : NodeId} {head : TopicHead}
    {localHead : UInt64} {batchLimit : UInt32} {items : List Pb.FetchResponse} (hs : Backend.Inv s)
    (htopic : ValidPart head.topic.value)
    (horigin : head.origin.Valid ∨ head.origin.isEmpty = true)
    (h : Serves s (fetch node (fetchRequest head localHead batchLimit)) items) :
    items = ((Backend.logs s).page (fetchQuery node head localHead batchLimit)).map
      fun m => ⟨some (protoMessage m)⟩ := by
  obtain ⟨s', hruns⟩ := h
  rw [fetch_eq node localHead batchLimit htopic horigin] at hruns
  obtain ⟨messages, s₁, hcall, hpure⟩ := Runs.of_bind hruns
  cases hpure
  rcases storeAnswers_cases hs (storeAnswers_of_runs hcall) with
    ⟨env, result, -, hresult, -, hstep⟩ | ⟨⟨e, herror⟩, -⟩
  · cases hresult
    exact congrArg (List.map _) hstep.1
  · cases herror

namespace Network

variable {ι : Type} [DecidableEq ι] {N : Network ι} {i j : ι}

def smooth (N : Network ι) : System ι N.Stores Command Command.Answer :=
  N.system.restrict fun _ _ c answer => c.Completes answer

/-- What a pass asks for: nothing that the logs give a reason to refuse. -/
def Asks (N : Network ι) (i : ι) (s : N.Stores) : Command → Prop
  | .store (.recordPeerSyncState _) => True
  | .store op => op.onLogs = true ∧ (N.view s i).refuses op = none
  | .nowMs => True
  | .send _ => True
  | .fetch endpoint request => (∃ j, N.resolve endpoint = some j) ∧
      ∃ head localHead batchLimit, request = fetchRequest head localHead batchLimit ∧
        ValidPart head.topic.value ∧ (head.origin.Valid ∨ head.origin.isEmpty = true)
  | _ => False

variable {s : N.Stores}

theorem inv_of_smooth (s : N.Stores) (c : Command) (answer : c.Answer) (s' : N.Stores)
    (hs : N.Inv s) (h : N.smooth.Answers i s c answer s') : N.Inv s' := by
  by_cases hstore : ∃ op, c = .store op
  · obtain ⟨op, rfl⟩ := hstore
    obtain ⟨-, t, hanswer, rfl⟩ := h
    rcases storeAnswers_cases (hs i) hanswer with ⟨env, r, -, -, hinv, -⟩ | ⟨-, hsame⟩
    · exact inv_update hs hinv
    · rw [hsame, Function.update_eq_self]
      exact hs
  · rw [answers_eq_of_ne_store h.2 fun op hc => hstore ⟨op, hc⟩]
    exact hs

theorem performs_callStore {op : StoreOp} {post : Except MsgbusError op.Result → N.Stores → Prop}
    (hs : N.Inv s) (hasks : N.Asks i s (.store op))
    (hpost : ∀ env result s', N.Inv s' → (∀ x, x ≠ i → N.view s' x = N.view s x) →
      Logs.Step env op result (N.view s i) (N.view s' i) → post (.ok result) s') :
    Performs (N.smooth.Answers i) (N.Asks i) (callStore op) post s := by
  refine ⟨hasks, ?_⟩
  rintro answer s' ⟨⟨result, rfl⟩, t, hanswer, rfl⟩
  rcases storeAnswers_cases (hs i) hanswer with ⟨env, r, -, hr, hinv, hstep⟩ | ⟨⟨e, herror⟩, -⟩
  · cases hr
    refine hpost env result _ (inv_update hs hinv) ?_ ?_
    · intro x hx
      rw [view_update, Function.update_of_ne hx]
    · rw [view_update, Function.update_self]
      exact hstep
  · cases herror

theorem performs_callStoreText {op : StoreOp} {post : Except String op.Result → N.Stores → Prop}
    (hs : N.Inv s) (hasks : N.Asks i s (.store op))
    (hpost : ∀ env result s', N.Inv s' → (∀ x, x ≠ i → N.view s' x = N.view s x) →
      Logs.Step env op result (N.view s i) (N.view s' i) → post (.ok result) s') :
    Performs (N.smooth.Answers i) (N.Asks i) (callStoreText op) post s :=
  (performs_callStore hs hasks hpost).mapError

theorem performs_nowMs {ε : Type} {post : Except ε UInt64 → N.Stores → Prop}
    (hpost : ∀ now, post (.ok now) s) :
    Performs (N.smooth.Answers i) (N.Asks i) (nowMs : Server ε UInt64) post s := by
  refine ⟨trivial, ?_⟩
  rintro now s' ⟨-, hsame⟩
  cases hsame
  exact hpost now

theorem view_eq_of_step {s' : N.Stores} (hothers : ∀ x, x ≠ i → N.view s' x = N.view s x)
    (hsame : N.view s' i = N.view s i) : N.view s' = N.view s := by
  ext x : 1
  by_cases hx : x = i
  · rw [hx, hsame]
  · exact hothers x hx

theorem performs_recordPeerSyncState {state : PeerSyncState}
    {post : Except String Unit → N.Stores → Prop} (hs : N.Inv s)
    (hpost : ∀ s', N.Inv s' → N.view s' = N.view s → post (.ok ()) s') :
    Performs (N.smooth.Answers i) (N.Asks i)
      (callStoreText (.recordPeerSyncState state) >>= fun _ => pure ()) post s := by
  refine performs_bind (performs_callStoreText hs trivial ?_)
  intro env result s' hs' hothers hsame
  exact hpost s' hs' (view_eq_of_step hothers hsame)

theorem performs_recordPeerSyncSuccess {post : Except String Unit → N.Stores → Prop} (hs : N.Inv s)
    (peer : PeerSpec) (topic : Option Topic) (origin : Option NodeId)
    (localHead remoteHead lastSyncedHead : UInt64)
    (hpost : ∀ s', N.Inv s' → N.view s' = N.view s → post (.ok ()) s') :
    Performs (N.smooth.Answers i) (N.Asks i)
      (recordPeerSyncSuccess peer topic origin localHead remoteHead lastSyncedHead) post s := by
  refine performs_bind (performs_nowMs fun attemptAt => ?_)
  refine performs_bind (performs_nowMs fun successAt => ?_)
  exact performs_recordPeerSyncState hs hpost

theorem performs_recordPeerSyncFailure {post : Except String Unit → N.Stores → Prop} (hs : N.Inv s)
    (peer : PeerSpec) (topic : Option Topic) (origin : Option NodeId)
    (localHead remoteHead : UInt64) (error : String)
    (hpost : ∀ s', N.Inv s' → N.view s' = N.view s → post (.ok ()) s') :
    Performs (N.smooth.Answers i) (N.Asks i)
      (recordPeerSyncFailure peer topic origin localHead remoteHead error) post s := by
  refine performs_bind (performs_nowMs fun attemptAt => ?_)
  exact performs_recordPeerSyncState hs hpost

/-! ## A pass -/

/-- In the course of a pass of `i` with `j` that started from `mine` and
`peer`. -/
structure Progress (N : Network ι) (i j : ι) (mine peer : Logs) (reached : LogKey → HeadId)
    (s : N.Stores) : Prop where
  inv : N.Inv s
  peer_eq : N.view s j = peer
  mine_eq : N.view s i = Logs.caughtTo mine peer reached
  le : ∀ k, mine.current k ≤ reached k

variable {mine peer : Logs} {reached : LogKey → HeadId} {spec : PeerSpec} {head : TopicHead}
variable {k : LogKey} {n : HeadId} {m : StoredMessage}

omit [DecidableEq ι] in
theorem progress_start (hs : N.Inv s) :
    N.Progress i j (N.view s i) (N.view s j) (N.view s i).current s where
  inv := hs
  peer_eq := rfl
  mine_eq := (Logs.caughtTo_start (wellFormed_view hs i)).symm
  le := fun _ => UInt64.le_refl _

omit [DecidableEq ι] in
theorem Progress.of_view {s' : N.Stores} (h : N.Progress i j mine peer reached s) (hs' : N.Inv s')
    (hview : N.view s' = N.view s) : N.Progress i j mine peer reached s' where
  inv := hs'
  peer_eq := by rw [hview, h.peer_eq]
  mine_eq := by rw [hview, h.mine_eq]
  le := h.le

omit [DecidableEq ι] in
theorem Progress.wellFormed (h : N.Progress i j mine peer reached s) : peer.WellFormed := by
  rw [← h.peer_eq]
  exact wellFormed_view h.inv j

omit [DecidableEq ι] in
theorem Progress.current (h : N.Progress i j mine peer reached s) (k : LogKey) :
    (N.view s i).current k = reached k := by
  rw [h.mine_eq, Logs.caughtTo_current (h.le k)]

omit [DecidableEq ι] in
theorem Progress.advance {s' : N.Stores} (h : N.Progress i j mine peer reached s) (hne : j ≠ i)
    (hs' : N.Inv s') (hothers : ∀ x, x ≠ i → N.view s' x = N.view s x)
    (hn : n.toNat = (reached k).toNat + 1)
    (hview : N.view s' i = Logs.caughtTo mine peer (Function.update reached k n)) :
    N.Progress i j mine peer (Function.update reached k n) s' where
  inv := hs'
  peer_eq := by rw [hothers j hne, h.peer_eq]
  mine_eq := hview
  le := by
    intro k'
    by_cases hk : k' = k
    · subst hk
      rw [Function.update_self]
      have hle := UInt64.le_iff_toNat_le.mp (h.le k')
      rw [UInt64.le_iff_toNat_le]
      omega
    · rw [Function.update_of_ne hk]
      exact h.le k'

/-! ### One message -/

/-- The next message of a log is stored and applied if it is of the origin that
the peer listed, and ends the pass otherwise. -/
theorem Progress.performs_syncMessage (h : N.Progress i j mine peer reached s) (hne : j ≠ i)
    (hpeer : peer.Honest) (hm : peer.message k n = some m)
    (hk : k = LogKey.of head.topic head.origin) (hn : n.toNat = (reached k).toNat + 1) :
    Performs (N.smooth.Answers i) (N.Asks i) (syncMessage spec head m)
      (fun out s' => (out = .ok () ∧ m.origin = head.origin ∧
          N.Progress i j mine peer (Function.update reached k n) s') ∨
        ((∃ e, out = .error e) ∧ m.origin ≠ head.origin)) s := by
  obtain ⟨hhead, hlog⟩ := h.wellFormed.positioned k n m hm
  have htopic : m.topic = head.topic := congrArg LogKey.topic (hlog.trans hk)
  by_cases horigin : m.origin = head.origin
  · rw [syncMessage_eq htopic horigin]
    have hmine : (N.view s i).WellFormed := wellFormed_view h.inv i
    have hnext : ((N.view s i).current m.log).toNat + 1 = m.headId.toNat := by
      rw [hlog, hhead, h.current, hn]
    refine performs_bind (performs_callStoreText h.inv ⟨rfl, Logs.refuses_put_next hmine hnext⟩ ?_)
    rintro env result s₁ hs₁ hothers ⟨-, hput⟩
    obtain ⟨rfl, hwrite⟩ := Logs.putStep_next hmine hnext hput
    rw [hhead, hlog, h.mine_eq] at hwrite
    change Performs _ _ (((applyControlMessage m).mapError Formats.statusText).bind fun _ => send m)
      _ s₁
    rcases hpeer.controlRange hm with hnone | ⟨range, hmarks, hle⟩
    · rw [applyControlMessage, hnone]
      refine ⟨trivial, ?_⟩
      rintro answer s₂ ⟨-, hsame⟩
      cases hsame
      rw [Logs.caughtTo_write (h.le k) hn hm ⟨hhead, hlog⟩ hnone] at hwrite
      exact Or.inl ⟨rfl, horigin, h.advance hne hs₁ hothers hn hwrite⟩
    · rw [applyControlMessage, hmarks]
      have hasks : N.Asks i s₁ (.store range.op) := ⟨rfl, if_neg (UInt64.not_lt.mpr hle)⟩
      refine performs_bind (performs_bind (performs_callStore hs₁ hasks ?_).mapError).mapError
      rintro env' count s₂ hs₂ hothers' ⟨-, -, hmark⟩
      refine ⟨trivial, ?_⟩
      rintro answer s₃ ⟨-, hsame⟩
      cases hsame
      rw [hwrite, Logs.caughtTo_mark (h.le k) hn hm ⟨hhead, hlog⟩ hmarks] at hmark
      refine Or.inl ⟨rfl, horigin, h.advance hne hs₂ (fun x hx => ?_) hn hmark⟩
      rw [hothers' x hx, hothers x hx]
  · unfold syncMessage
    rw [if_pos (Or.inr horigin)]
    exact Or.inr ⟨⟨_, rfl⟩, horigin⟩

/-! ### One stream -/

theorem Progress.performs_receive (h : N.Progress i j mine peer reached s) (hne : j ≠ i)
    (hpeer : peer.Honest) (hk : k = LogKey.of head.topic head.origin) {start : UInt64}
    (localHead : { localHead : UInt64 // start ≤ localHead }) (hlocal : localHead.1 = reached k)
    {messages : List StoredMessage}
    (hpositions : messages.map (·.headId.toNat) =
      List.range' ((reached k).toNat + 1) messages.length)
    (hmessages : ∀ m ∈ messages, peer.message k m.headId = some m) (fetched : UInt32) :
    Performs (N.smooth.Answers i) (N.Asks i)
      (receive spec head none (messages.map fun m => ⟨some (protoMessage m)⟩) localHead fetched)
      (fun out s' => (∃ result, out = .ok result ∧ (∀ m ∈ messages, m.origin = head.origin) ∧
          result.1.1.toNat = (reached k).toNat + messages.length ∧
          (fetched ≠ 0 ∨ messages ≠ [] → result.2 ≠ 0) ∧
          N.Progress i j mine peer (Function.update reached k result.1.1) s') ∨
        ((∃ e, out = .error e) ∧ ∃ m ∈ messages, m.origin ≠ head.origin)) s := by
  induction messages generalizing reached localHead fetched s with
  | nil =>
      refine Or.inl ⟨_, rfl, fun m hm => absurd hm List.not_mem_nil, ?_, ?_, ?_⟩
      · rw [hlocal]
        rfl
      · exact fun hfetched => hfetched.resolve_right fun hnil => hnil rfl
      · rw [hlocal, Function.update_eq_self]
        exact h
  | cons m rest ih =>
      have hm := hmessages m List.mem_cons_self
      rw [List.length_cons, List.range'_succ, List.map_cons, List.cons.injEq] at hpositions
      obtain ⟨hn, hrest⟩ := hpositions
      have hmax : max localHead.1 m.headId = m.headId := by
        rw [hlocal, ← UInt64.toNat_inj, UInt64.toNat_max]
        omega
      rw [List.map_cons, receive_cons (hpeer.decodes h.wellFormed hm)]
      refine (h.performs_syncMessage hne hpeer hm hk hn).bind ?_ ?_
      · rintro u s₁ (⟨-, horigin, hprogress⟩ | ⟨⟨e, herror⟩, -⟩)
        · have hreached : Function.update reached k m.headId k = m.headId :=
            Function.update_self k m.headId reached
          refine (ih hprogress ⟨max localHead.1 m.headId, _⟩ (hmax.trans hreached.symm)
            ?_ ?_ _).consequence ?_
          · rw [hreached, hn]
            exact hrest
          · exact fun m' hm' => hmessages m' (List.mem_cons_of_mem m hm')
          · rintro out s' (⟨result, rfl, horigins, hresult, hfetched, hs'⟩ | ⟨herror, m', hm', hother⟩)
            · refine Or.inl ⟨result, rfl, ?_, ?_, ?_, ?_⟩
              · exact List.forall_mem_cons.mpr ⟨horigin, horigins⟩
              · rw [hresult, hreached, hn, List.length_cons]
                omega
              · exact fun _ => hfetched (Or.inl (UInt32.saturatingAdd_one_ne_zero fetched))
              · rw [Function.update_idem] at hs'
                exact hs'
            · exact Or.inr ⟨herror, m', List.mem_cons_of_mem m hm', hother⟩
        · cases herror
      · rintro e s₁ (⟨hok, -⟩ | ⟨-, hother⟩)
        · cases hok
        · exact Or.inr ⟨⟨e, rfl⟩, m, List.mem_cons_self, hother⟩

/-! ### One log -/

theorem Progress.performs_fetch {ε α : Type} {request : Pb.FetchRequest}
    {next : Except Status (List Pb.FetchResponse × Option Status) → Server ε α}
    {post : Except ε α → N.Stores → Prop} {localHead : UInt64} {batchLimit : UInt32}
    (h : N.Progress i j mine peer reached s) (hresolve : N.resolve spec.endpoint = some j)
    (htopic : ValidPart head.topic.value)
    (horigin : head.origin.Valid ∨ head.origin.isEmpty = true)
    (hrequest : request = fetchRequest head localHead batchLimit)
    (hnext : Performs (N.smooth.Answers i) (N.Asks i)
      (next (.ok ((peer.page (fetchQuery (N.node j) head localHead batchLimit)).map
        (fun m => ⟨some (protoMessage m)⟩), none))) post s) :
    Performs (N.smooth.Answers i) (N.Asks i) (.call (.fetch spec.endpoint request) next) post s := by
  refine ⟨⟨⟨j, hresolve⟩, head, localHead, batchLimit, hrequest, htopic, horigin⟩, ?_⟩
  rintro answer s' ⟨⟨items, rfl⟩, hsame, hserved⟩
  cases hsame
  obtain ⟨j', all, hj', hserves, -, hall⟩ := hserved items none rfl
  rw [hresolve, Option.some.injEq] at hj'
  subst hj'
  rw [hrequest] at hserves
  have hwindow := serves_fetch_eq (h.inv j) htopic horigin hserves
  rw [hall rfl, hwindow, show Backend.logs (s j) = peer from h.peer_eq]
  exact hnext

theorem Progress.performs_syncLoop (h : N.Progress i j mine peer reached s) (hne : j ≠ i)
    (hpeer : peer.Honest) (hresolve : N.resolve spec.endpoint = some j)
    (hk : k = LogKey.of head.topic head.origin) (htopic : ValidPart head.topic.value)
    (hvalid : reached k < head.headId → head.origin.Valid) (hhead : peer.current k = head.headId)
    (batchLimit : UInt32) :
    Performs (N.smooth.Answers i) (N.Asks i) (syncLoop spec head batchLimit (reached k))
      (fun out s' => (∃ result, out = .ok result ∧ result = max (reached k) head.headId ∧
          (∀ n m, reached k < n → peer.message k n = some m → m.origin = head.origin) ∧
          N.Progress i j mine peer (Function.update reached k result) s') ∨
        ((∃ e, out = .error e) ∧
          ∃ n m, reached k < n ∧ peer.message k n = some m ∧ m.origin ≠ head.origin)) s := by
  induction hleft : head.headId.toNat - (reached k).toNat using Nat.strong_induction_on
    generalizing reached s with
  | h left ih =>
      rw [syncLoop]
      by_cases hbehind : reached k < head.headId
      · rw [if_pos hbehind]
        have horigin := hvalid hbehind
        have hlt := UInt64.lt_iff_toNat_lt.mp hbehind
        obtain ⟨count, hcount, hle, hpositions, hmessages⟩ := Logs.page_next h.wellFormed (N.node j)
          batchLimit horigin (by rw [← hk, hhead]; exact hbehind)
        rw [← hk] at hle hmessages
        have hlength : (peer.page (fetchQuery (N.node j) head (reached k) batchLimit)).length =
            count := by
          rw [← List.length_map, hpositions, List.length_range']
        refine h.performs_fetch hresolve htopic (Or.inl horigin) rfl ?_
        refine (h.performs_receive hne hpeer hk ⟨reached k, UInt64.le_refl _⟩ rfl
          (hlength ▸ hpositions) hmessages 0).bind ?_ ?_
        · rintro ⟨result, fetched⟩ s₁ (⟨r, hr, horigins, hresult, hfetched, hs₁⟩ | ⟨⟨e, herror⟩, -⟩)
          · cases hr
            dsimp only at hresult hfetched hs₁
            rw [hlength] at hresult
            have hk' : Function.update reached k result.1 k = result.1 :=
              Function.update_self k result.1 reached
            refine performs_bind (performs_recordPeerSyncSuccess hs₁.inv _ _ _ _ _ _ ?_)
            intro s₂ hs₂ hview
            have hgo : ¬ (fetched = 0 ∨ result.1 = reached k) := by
              rintro (hzero | hsame)
              · refine hfetched (Or.inr ?_) hzero
                rw [← List.length_pos_iff, hlength]
                exact hcount
              · rw [hsame] at hresult
                omega
            rw [dif_neg hgo]
            have hprogress := hs₁.of_view hs₂ hview
            have hrest := ih _ (by rw [hk']; omega) hprogress (fun _ => horigin) rfl
            simp only [hk', Function.update_idem] at hrest
            refine hrest.consequence ?_
            rintro out s' (⟨final, rfl, hfinal, hlater, hs'⟩ | ⟨herror, n, m, hn, hm, hother⟩)
            · refine Or.inl ⟨final, rfl, ?_, ?_, hs'⟩
              · rw [hfinal, ← UInt64.toNat_inj, UInt64.toNat_max, UInt64.toNat_max]
                rw [hhead] at hle
                omega
              · intro n m hn hm
                by_cases hpast : result.1 < n
                · exact hlater n m hpast hm
                · have hmem : n.toNat ∈ (peer.page (fetchQuery (N.node j) head (reached k)
                      batchLimit)).map (·.headId.toNat) := by
                    rw [hpositions, List.mem_range'_1]
                    have hnlt := UInt64.lt_iff_toNat_lt.mp hn
                    have hnle := UInt64.le_iff_toNat_le.mp (UInt64.not_lt.mp hpast)
                    omega
                  obtain ⟨m', hm', hposition⟩ := List.mem_map.mp hmem
                  have hstored := hmessages m' hm'
                  rw [UInt64.toNat_inj.mp hposition, hm] at hstored
                  cases hstored
                  exact horigins m hm'
            · refine Or.inr ⟨herror, n, m, ?_, hm, hother⟩
              have hnlt := UInt64.lt_iff_toNat_lt.mp hn
              rw [UInt64.lt_iff_toNat_lt]
              omega
          · cases herror
        · rintro e s₁ (⟨result, hok, -⟩ | ⟨-, m, hm, hother⟩)
          · cases hok
          · refine Or.inr ⟨⟨e, rfl⟩, m.headId, m, ?_, hmessages m hm, hother⟩
            have hmem := List.mem_map_of_mem (f := fun m => m.headId.toNat) hm
            rw [hpositions, List.mem_range'_1] at hmem
            rw [UInt64.lt_iff_toNat_lt]
            exact hmem.1
      · rw [if_neg hbehind]
        have hmax : max (reached k) head.headId = reached k := by
          have hle := UInt64.le_iff_toNat_le.mp (UInt64.not_lt.mp hbehind)
          rw [← UInt64.toNat_inj, UInt64.toNat_max]
          omega
        refine Or.inl ⟨reached k, rfl, hmax.symm, ?_, ?_⟩
        · intro n m hn hm
          have hsome := (h.wellFormed.contiguous k n).mp (by rw [hm]; rfl)
          rw [hhead] at hsome
          have hlt := UInt64.lt_iff_toNat_lt.mp hn
          have hle := UInt64.le_iff_toNat_le.mp (UInt64.not_lt.mp hbehind)
          omega
        · rw [Function.update_eq_self]
          exact h

/-- A log without an origin is asked for under the peer's own: nothing of it is
replicated, and the pass fails if the peer has a log of its own on the topic. -/
theorem Progress.performs_syncLoop_of_isEmpty (h : N.Progress i j mine peer reached s)
    (hpeer : peer.Honest) (hresolve : N.resolve spec.endpoint = some j)
    (htopic : ValidPart head.topic.value) (hempty : head.origin.isEmpty = true)
    (hbehind : reached k < head.headId) (batchLimit : UInt32) :
    Performs (N.smooth.Answers i) (N.Asks i) (syncLoop spec head batchLimit (reached k))
      (fun out s' => (∃ e, out = .error e) ∨
        (out = .ok (reached k) ∧ N.Progress i j mine peer reached s')) s := by
  rw [syncLoop, if_pos hbehind]
  refine h.performs_fetch hresolve htopic (Or.inr hempty) rfl ?_
  cases hpage : peer.page (fetchQuery (N.node j) head (reached k) batchLimit) with
  | nil =>
      change Performs _ _ (recordPeerSyncSuccess spec (some head.topic) (some head.origin) (reached k)
        head.headId (reached k) >>= fun _ => pure (reached k)) _ s
      refine performs_bind (performs_recordPeerSyncSuccess h.inv _ _ _ _ _ _ ?_)
      intro s₁ hs₁ hview
      exact Or.inr ⟨rfl, h.of_view hs₁ hview⟩
  | cons m rest =>
      have hm := Logs.message_of_mem_window h.wellFormed
        (show m ∈ peer.page _ from hpage ▸ List.mem_cons_self)
      have horigin : m.origin ≠ head.origin := by
        intro hsame
        have hkey := congrArg LogKey.origin (h.wellFormed.positioned _ _ _ hm).2
        change m.origin.key = (if head.origin.isEmpty = true then N.node j else head.origin).key
          at hkey
        rw [if_pos hempty, hsame] at hkey
        exact NodeId.Valid.key_ne_of_isEmpty (N.valid j) hempty hkey.symm
      change Performs _ _ (receive spec head none (⟨some (protoMessage m)⟩ :: rest.map _)
        ⟨reached k, UInt64.le_refl _⟩ 0 >>= _) _ s
      rw [receive_cons (hpeer.decodes h.wellFormed hm), syncMessage, if_pos (Or.inr horigin)]
      exact Or.inl ⟨_, rfl⟩

theorem Progress.performs_finish (h : N.Progress i j mine peer reached s) (spec : PeerSpec)
    (head : TopicHead) (localHead : UInt64) :
    Performs (N.smooth.Answers i) (N.Asks i)
      (if head.headId ≤ localHead then
        recordPeerSyncSuccess spec (some head.topic) (some head.origin) localHead head.headId
          localHead
      else pure ())
      (fun out s' => out = .ok () ∧ N.Progress i j mine peer reached s') s := by
  split_ifs
  · exact performs_recordPeerSyncSuccess h.inv _ _ _ _ _ _
      fun s' hs' hview => ⟨rfl, h.of_view hs' hview⟩
  · exact ⟨rfl, h⟩

theorem Progress.performs_syncHead (h : N.Progress i j mine peer reached s) (hne : j ≠ i)
    (hpeer : peer.Honest) (hresolve : N.resolve spec.endpoint = some j)
    (hlisted : peer.IsHead head) (hk : k = LogKey.of head.topic head.origin)
    (hstart : reached k = mine.current k) (batchLimit : UInt32) :
    Performs (N.smooth.Answers i) (N.Asks i) (syncHead spec head batchLimit)
      (fun out s' => ((∃ e, out = .error e) ∧ ¬ Logs.Replicable mine peer head) ∨
        (out = .ok () ∧ ∃ reached', N.Progress i j mine peer reached' s' ∧
          (∀ k', k' ≠ k → reached' k' = reached k') ∧
          Logs.Handles mine peer reached reached' head)) s := by
  have hcurrent := hlisted.current_eq h.wellFormed
  obtain ⟨htopic, hvalid⟩ := hpeer.of_isHead hlisted
  rw [← hk] at hcurrent
  refine performs_bind (performs_callStoreText h.inv ⟨rfl, rfl⟩ ?_)
  rintro env stored s₁ hs₁ hothers ⟨rfl, hmine⟩
  have hview : N.view s₁ = N.view s := view_eq_of_step hothers hmine
  have hstored : ((N.view s i).head (LogKey.of head.topic head.origin)).getD 0 = reached k := by
    rw [← h.current k, hk]
    rfl
  change Performs _ _ (syncLoop spec head batchLimit
    (((N.view s i).head (LogKey.of head.topic head.origin)).getD 0) >>= _) _ s₁
  rw [hstored]
  have h₁ := h.of_view hs₁ hview
  by_cases hblank : reached k < head.headId ∧ head.origin.isEmpty = true
  · have hnot : ¬ Logs.Replicable mine peer head := by
      intro hreplicable
      rw [hk] at hstart hblank
      have hempty := (hreplicable (hstart ▸ hblank.1)).1
      rw [hblank.2] at hempty
      cases hempty
    refine (h₁.performs_syncLoop_of_isEmpty hpeer hresolve htopic hblank.2 hblank.1 batchLimit).bind
      ?_ ?_
    · rintro localHead s₂ (⟨e, herror⟩ | ⟨-, h₂⟩)
      · cases herror
      · refine (h₂.performs_finish spec head localHead).consequence ?_
        rintro out s' ⟨rfl, hs'⟩
        exact Or.inr ⟨rfl, reached, hs', fun k' _ => rfl, Or.inr ⟨hblank.2, hnot, rfl⟩⟩
    · exact fun e s₂ _ => Or.inl ⟨⟨e, rfl⟩, hnot⟩
  · have hbehind : reached k < head.headId → head.origin.Valid :=
      fun hlt => hvalid.resolve_right fun hempty => hblank ⟨hlt, hempty⟩
    refine (h₁.performs_syncLoop hne hpeer hresolve hk htopic hbehind hcurrent batchLimit).bind ?_ ?_
    · rintro localHead s₂ (⟨result, hresult, rfl, horigins, h₂⟩ | ⟨⟨e, herror⟩, -⟩)
      · cases hresult
        refine (h₂.performs_finish spec head _).consequence ?_
        rintro out s' ⟨rfl, hs'⟩
        refine Or.inr ⟨rfl, _, hs', fun k' hk' => Function.update_of_ne hk' _ _, Or.inl ⟨?_, ?_⟩⟩
        · intro hlt
          rw [← hk] at hlt ⊢
          rw [← hstart] at hlt ⊢
          exact ⟨(hbehind hlt).isEmpty_eq, horigins⟩
        · rw [← hk, Function.update_self]
      · cases herror
    · rintro e s₂ (⟨result, hresult, -⟩ | ⟨-, n, m, hn, hm, hother⟩)
      · cases hresult
      · refine Or.inl ⟨⟨e, rfl⟩, ?_⟩
        intro hreplicable
        have hle := ((h.wellFormed.contiguous k n).mp (by rw [hm]; rfl)).2
        have hlt : reached k < head.headId := by
          rw [UInt64.lt_iff_toNat_lt, ← hcurrent]
          exact Nat.lt_of_lt_of_le (UInt64.lt_iff_toNat_lt.mp hn) hle
        unfold Logs.Replicable at hreplicable
        rw [← hk, ← hstart] at hreplicable
        exact hother ((hreplicable hlt).2 n m hn hm)

/-! ### All logs -/

/-- Each listed log is replicated if it can be, and the pass fails only if one
cannot. -/
theorem Progress.performs_syncHeads (h : N.Progress i j mine peer reached s) (hne : j ≠ i)
    (hpeer : peer.Honest) (hresolve : N.resolve spec.endpoint = some j) (batchLimit : UInt32)
    {heads : List TopicHead} (hnodup : heads.Nodup) (hlisted : ∀ head ∈ heads, peer.IsHead head)
    (hstart : ∀ head ∈ heads, reached (LogKey.of head.topic head.origin) =
      mine.current (LogKey.of head.topic head.origin)) :
    Performs (N.smooth.Answers i) (N.Asks i) (syncHeads spec batchLimit (heads.map protoTopicHead))
      (fun out s' => ((∃ e, out = .error e) ∧ ∃ head ∈ heads, ¬ Logs.Replicable mine peer head) ∨
        (out = .ok () ∧ ∃ reached', N.Progress i j mine peer reached' s' ∧
          (∀ k, (∀ head ∈ heads, k ≠ LogKey.of head.topic head.origin) → reached' k = reached k) ∧
          ∀ head ∈ heads, Logs.Handles mine peer reached reached' head)) s := by
  induction heads generalizing reached s with
  | nil =>
      refine Or.inr ⟨rfl, reached, h, fun k _ => rfl, ?_⟩
      exact fun head hhead => absurd hhead List.not_mem_nil
  | cons head rest ih =>
      have hhead := hlisted head List.mem_cons_self
      obtain ⟨hfresh, hnodup⟩ := List.nodup_cons.mp hnodup
      obtain ⟨htopic, hvalid⟩ := hpeer.of_isHead hhead
      -- the log of a later head is another one
      have hothers : ∀ head' ∈ rest,
          LogKey.of head'.topic head'.origin ≠ LogKey.of head.topic head.origin := by
        intro head' hmem hlog
        have heq := (hlisted head' (List.mem_cons_of_mem _ hmem)).eq_of_log h.wellFormed hhead hlog
        exact hfresh (heq ▸ hmem)
      rw [List.map_cons, syncHeads_cons (coreTopicHead_protoTopicHead hvalid htopic)]
      refine performs_bind (Performs.attempt ?_)
      refine ((h.performs_syncHead hne hpeer hresolve hhead rfl (hstart head List.mem_cons_self)
        batchLimit).and_invariant h.inv inv_of_smooth).consequence ?_
      rintro outcome s₁ ⟨⟨⟨e, rfl⟩, hnot⟩ | ⟨rfl, reached₁, h₁, hkept, hhandled⟩, hs₁⟩
      · refine performs_bind (performs_callStoreText hs₁ ⟨rfl, rfl⟩ ?_)
        intro env stored s₂ hs₂ hothers hread
        refine performs_bind (performs_recordPeerSyncFailure hs₂ _ _ _ _ _ _ ?_)
        exact fun s₃ hs₃ hview => Or.inl ⟨⟨e, rfl⟩, head, List.mem_cons_self, hnot⟩
      · have hstart₁ : ∀ head' ∈ rest, reached₁ (LogKey.of head'.topic head'.origin) =
            mine.current (LogKey.of head'.topic head'.origin) := by
          intro head' hmem
          rw [hkept _ (hothers head' hmem)]
          exact hstart head' (List.mem_cons_of_mem _ hmem)
        refine (ih h₁ hnodup (fun head' hmem => hlisted head' (List.mem_cons_of_mem _ hmem))
          hstart₁).consequence ?_
        rintro out s' (⟨herror, head', hmem, hnot⟩ | ⟨rfl, reached', h', hkept', hhandled'⟩)
        · exact Or.inl ⟨herror, head', List.mem_cons_of_mem _ hmem, hnot⟩
        · refine Or.inr ⟨rfl, reached', h', ?_, List.forall_mem_cons.mpr ⟨?_, ?_⟩⟩
          · intro k hk
            rw [hkept' k fun head' hmem => hk head' (List.mem_cons_of_mem _ hmem),
              hkept k (hk head List.mem_cons_self)]
          · unfold Logs.Handles
            rw [hkept' _ fun head' hmem => (hothers head' hmem).symm]
            exact hhandled
          · intro head' hmem
            have hsame := hhandled' head' hmem
            unfold Logs.Handles at hsame
            rw [hkept _ (hothers head' hmem)] at hsame
            exact hsame

omit [Formats] in
/-- When every listed log has been replicated, so have all logs of the peer. -/
theorem eq_max_of_handles {heads : List TopicHead} {reached' : LogKey → HeadId}
    (hwf : peer.WellFormed) (hlisted : ∀ head, head ∈ heads ↔ peer.IsHead head)
    (hkept : ∀ k, (∀ head ∈ heads, k ≠ LogKey.of head.topic head.origin) →
      reached' k = mine.current k)
    (hreached : ∀ head ∈ heads, reached' (LogKey.of head.topic head.origin) =
      max (mine.current (LogKey.of head.topic head.origin)) head.headId) :
    reached' = fun k => max (mine.current k) (peer.current k) := by
  ext k : 1
  cases hhead : peer.head k with
  | none =>
      have hzero : peer.current k = 0 := by rw [Logs.current, hhead]; rfl
      rw [hkept k, hzero, ← UInt64.toNat_inj, UInt64.toNat_max]
      · exact (Nat.max_zero _).symm
      · rintro head hmem rfl
        have hcurrent := ((hlisted head).mp hmem).current_eq hwf
        obtain ⟨k', m, hk', hm, htopic, horigin⟩ := (hlisted head).mp hmem
        have hpos := hwf.head_pos k' _ hk'
        rw [← hcurrent, hzero] at hpos
        cases hpos
  | some headId =>
      have hcurrent : peer.current k = headId := by rw [Logs.current, hhead]; rfl
      have hpos := hwf.head_pos k headId hhead
      obtain ⟨m, hm⟩ : ∃ m, peer.message k headId = some m := by
        rw [← Option.isSome_iff_exists, hwf.contiguous, hcurrent]
        exact ⟨hpos, Nat.le_refl _⟩
      have hmem : ⟨m.topic, m.origin, headId⟩ ∈ heads :=
        (hlisted _).mpr ⟨k, m, hhead, hm, rfl, rfl⟩
      have hlog : LogKey.of m.topic m.origin = k := (hwf.positioned k headId m hm).2
      have hmax := hreached _ hmem
      rw [hlog] at hmax
      rw [hmax, hcurrent]

theorem reachable_of_smooth (s : N.Stores) (c : Command) (answer : c.Answer) (s' : N.Stores)
    (hs : ∀ x, Reachable (s x)) (h : N.smooth.Answers i s c answer s') : ∀ x, Reachable (s' x) := by
  by_cases hstore : ∃ op, c = .store op
  · obtain ⟨op, rfl⟩ := hstore
    obtain ⟨-, t, hanswer, rfl⟩ := h
    refine (Function.forall_update_iff s fun x (t : (N.storage x).Store) => Reachable t).mpr
      ⟨?_, fun x _ => hs x⟩
    rcases hanswer with ⟨env, -, -, rfl⟩ | ⟨message, -, rfl⟩
    · exact (hs i).call env op
    · exact hs i
  · rw [answers_eq_of_ne_store h.2 fun op hc => hstore ⟨op, hc⟩]
    exact hs

theorem accepts_of_redb {kind : StorageKind} (hkind : kind = .redb) (b : Logs) (env : CallEnv)
    (op : StoreOp) : @Backend.Accepts _ kind.Store (instBackendStore kind) b env op := by
  subst hkind
  trivial

/-- On redb, whatever a pass asks for is answered. -/
theorem exists_answer_of_asks (hredb : ∀ x, N.storage x = .redb) (s : N.Stores) (c : Command)
    (hs : ∀ x, Reachable (s x)) (hasks : N.Asks i s c) :
    ∃ answer s', N.smooth.Answers i s c answer s' := by
  cases c with
  | store op =>
      by_cases hop : op.onLogs = true
      · have hrefuses : ((N.storage i).logs (s i)).refuses op = none := by
          cases op with
          | recordPeerSyncState state => cases hop
          | _ => exact hasks.2
        obtain ⟨result, t, hanswer, -⟩ := exists_storeAnswers (hs i)
          (show ValidPart (CallEnv.id ⟨0, 0, ⟨"m"⟩⟩).value by decide) hop
          (accepts_of_redb (hredb i) _ _ _) hrefuses
        exact ⟨.ok result, _, ⟨result, rfl⟩, t, hanswer, rfl⟩
      · cases op with
        | recordPeerSyncState state =>
            obtain ⟨t, hanswer, -⟩ := exists_recordPeerSyncState (hs i) state
            exact ⟨.ok (), _, ⟨(), rfl⟩, t, hanswer, rfl⟩
        | _ => exact absurd hasks.1 hop
  | nowMs => exact ⟨(0 : UInt64), s, trivial, rfl⟩
  | send m => exact ⟨(), s, trivial, rfl⟩
  | fetch endpoint request =>
      obtain ⟨⟨j, hresolve⟩, head, localHead, batchLimit, rfl, htopic, horigin⟩ := hasks
      have hfetch := Backend.fetchMessages_eq (Backend.inv_of_reachable (hs j))
        (accepts_of_redb (hredb j) _ ⟨0, 0, ⟨"m"⟩⟩
          (.fetchMessages (fetchQuery (N.node j) head localHead batchLimit)))
      obtain ⟨items, hserves⟩ : ∃ items, Serves (s j)
          (fetch (N.node j) (fetchRequest head localHead batchLimit)) items :=
        ⟨_, serves_fetch htopic horigin hfetch⟩
      refine ⟨.ok (items, none), s, ⟨items, rfl⟩, rfl, ?_⟩
      rintro items' last ⟨⟩
      exact ⟨j, items, hresolve, hserves, List.prefix_rfl, fun _ => rfl⟩
  | _ => exact absurd hasks id

variable {heads : List TopicHead}

theorem exists_runs_syncHeads (hredb : ∀ x, N.storage x = .redb) (hs : ∀ x, Reachable (s x))
    (hne : j ≠ i) (hpeer : (N.view s j).Honest) (hresolve : N.resolve spec.endpoint = some j)
    (hnodup : heads.Nodup) (hlisted : ∀ head ∈ heads, (N.view s j).IsHead head)
    (batchLimit : UInt32) : ∃ out s', Runs (N.smooth.Answers i) s
      (syncHeads spec batchLimit (heads.map protoTopicHead)) out s' := by
  have hinv : N.Inv s := fun x => Backend.inv_of_reachable (hs x)
  have hperforms := (progress_start hinv).performs_syncHeads hne hpeer hresolve batchLimit hnodup
    hlisted fun _ _ => rfl
  exact hperforms.exists_runs hs (exists_answer_of_asks hredb) reachable_of_smooth

/-- When all calls succeed, a pass over the listed logs of an honest peer returns
`Ok` and catches up with the peer exactly if every listed log that the daemon is
behind on has new messages of the listed origin alone; its outcome does not
depend on the batches or on the order of the logs.  Nothing that a pass asks for
is refused by the logs, so on redb there is such a pass. -/
theorem catches_up_iff (hs : N.Inv s) (hne : j ≠ i) (hpeer : (N.view s j).Honest)
    (hresolve : N.resolve spec.endpoint = some j) (hnodup : heads.Nodup)
    (hlisted : ∀ head, head ∈ heads ↔ (N.view s j).IsHead head) (batchLimit : UInt32) :
    (∀ out s', Runs (N.smooth.Answers i) s
        (syncHeads spec batchLimit (heads.map protoTopicHead)) out s' →
      ((out = .ok () ∧ N.view s' i = Logs.caughtUp (N.view s i) (N.view s j)) ↔
        ∀ head ∈ heads, Logs.Replicable (N.view s i) (N.view s j) head)) ∧
    ((∀ x, N.storage x = .redb) → (∀ x, Reachable (s x)) →
      ∃ out s', Runs (N.smooth.Answers i) s
        (syncHeads spec batchLimit (heads.map protoTopicHead)) out s') := by
  have hheads := fun head hmem => (hlisted head).mp hmem
  constructor
  · intro out s' hruns
    have hwf : (N.view s j).WellFormed := wellFormed_view hs j
    rcases ((progress_start hs).performs_syncHeads hne hpeer hresolve batchLimit hnodup hheads
      fun _ _ => rfl).of_runs hruns with
      ⟨⟨e, rfl⟩, head, hmem, hnot⟩ | ⟨rfl, reached, h', hkept, hhandled⟩
    · constructor
      · rintro ⟨hok, -⟩
        cases hok
      · exact fun hall => absurd (hall head hmem) hnot
    · constructor
      · rintro ⟨-, hcaught⟩ head hmem
        rcases hhandled head hmem with ⟨hreplicable, -⟩ | ⟨-, hnot, hsame⟩
        · exact hreplicable
        · refine absurd (fun hbehind => ?_) hnot
          have hcurrent := h'.current (LogKey.of head.topic head.origin)
          rw [hcaught, hsame, Logs.caughtUp, Logs.caughtTo_current (UInt64.le_max_left _ _),
            (hheads head hmem).current_eq hwf] at hcurrent
          have hmax := congrArg UInt64.toNat hcurrent
          rw [UInt64.toNat_max] at hmax
          have hlt := UInt64.lt_iff_toNat_lt.mp hbehind
          omega
      · intro hall
        refine ⟨rfl, ?_⟩
        have hmax := eq_max_of_handles hwf hlisted hkept fun head hmem =>
          ((hhandled head hmem).resolve_right fun h => h.2.1 (hall head hmem)).2
        rw [h'.mine_eq, hmax]
        rfl
  · exact fun hredb hreachable => exists_runs_syncHeads hredb hreachable hne hpeer hresolve hnodup
      hheads batchLimit

theorem handles_of_runs {out : Except String Unit} {s' : N.Stores} (hs : N.Inv s) (hne : j ≠ i)
    (hpeer : (N.view s j).Honest) (hresolve : N.resolve spec.endpoint = some j)
    (hlisted : (N.view s j).IsHead head) {batchLimit : UInt32}
    (hruns : Runs (N.smooth.Answers i) s (syncHeads spec batchLimit [protoTopicHead head]) out s') :
    ((∃ e, out = .error e) ∧ ¬ Logs.Replicable (N.view s i) (N.view s j) head) ∨
      (out = .ok () ∧
        Logs.Handles (N.view s i) (N.view s j) (N.view s i).current (N.view s' i).current head) := by
  have hone : ∀ head' ∈ [head], (N.view s j).IsHead head' :=
    fun head' hmem => List.mem_singleton.mp hmem ▸ hlisted
  rcases ((progress_start hs).performs_syncHeads hne hpeer hresolve batchLimit
    (List.nodup_singleton head) hone fun _ _ => rfl).of_runs hruns with
    ⟨herror, head', hmem, hnot⟩ | ⟨rfl, reached, h', -, hhandled⟩
  · rw [List.mem_singleton.mp hmem] at hnot
    exact Or.inl ⟨herror, hnot⟩
  · have hcurrent : (N.view s' i).current = reached := funext h'.current
    rw [hcurrent]
    exact Or.inr ⟨rfl, hhandled head (List.mem_singleton_self head)⟩

/-! ## Two origins in one log -/

def slashedEntry : StoredMessage := ⟨⟨"m"⟩, ⟨"t"⟩, slashedNode, 1, .empty, .empty, 0, false⟩

def splitEntry : StoredMessage := ⟨⟨"n"⟩, ⟨"t"⟩, splitNode, 2, .empty, .empty, 0, false⟩

def slashedLogs : Logs := Logs.empty.write slashedEntry.log 1 slashedEntry

def mixedLogs : Logs := slashedLogs.write splitEntry.log 2 splitEntry

theorem honest_slashedLogs : slashedLogs.Honest :=
  Logs.honest_empty.write (by decide) (by decide) (Or.inl (by decide)) (by decide)

theorem honest_mixedLogs : mixedLogs.Honest :=
  honest_slashedLogs.write (by decide) (by decide) (Or.inl (by decide)) (by decide)

omit [Formats] in
theorem head_slashedLogs_of_ne {k : LogKey} (hk : k ≠ splitEntry.log) : slashedLogs.head k = none :=
  Logs.write_head_of_ne_log hk

omit [Formats] in
theorem isHead_slashedLogs (head : TopicHead) :
    slashedLogs.IsHead head ↔ head = ⟨⟨"t"⟩, slashedNode, 1⟩ :=
  Logs.isHead_write_iff (fun _ _ => rfl) rfl head

omit [Formats] in
theorem isHead_mixedLogs (head : TopicHead) :
    mixedLogs.IsHead head ↔ head = ⟨⟨"t"⟩, splitNode, 2⟩ :=
  Logs.isHead_write_iff (fun _ hk => head_slashedLogs_of_ne hk) rfl head

omit [Formats] in
theorem not_replicable_mixed {b : Logs} (hfirst : b.message splitEntry.log 1 = some slashedEntry) :
    ¬ Logs.Replicable Logs.empty b ⟨⟨"t"⟩, splitNode, 2⟩ := by
  intro hreplicable
  have horigin := (hreplicable (by decide)).2 1 slashedEntry (by decide) hfirst
  exact absurd horigin (by decide)

theorem exists_holds {b : Logs} {m : StoredMessage} {s : (pair .redb).Stores}
    (hs : (pair .redb).Settled (Function.update (fun _ => Logs.empty) true b) s)
    (hnext : (b.current m.log).toNat + 1 = m.headId.toNat)
    (hranges : ∀ k first last, ¬ b.tombstone k first last) : ∃ s', (pair .redb).Settled
      (Function.update (fun _ => Logs.empty) true (b.write m.log m.headId m)) s' := by
  have hlenient : (pair .redb).Lenient fun _ _ _ _ => True := fun _ _ _ _ _ _ _ _ => trivial
  obtain ⟨s', -, hs'⟩ := hs.put (i := true) (m := m) hlenient hnext trivial
  have hstamp : b.stamp m = m :=
    Logs.stamp_eq_self_iff.mpr (Or.inr fun ⟨_, _, hrange, _⟩ => hranges _ _ _ hrange)
  rw [Function.update_self, Function.update_idem, hstamp] at hs'
  exact ⟨s', hs'⟩

theorem exists_slashed : ∃ s : (pair .redb).Stores,
    (pair .redb).Settled (Function.update (fun _ => Logs.empty) true slashedLogs) s := by
  have hfresh := settled_fresh (N := pair .redb)
  rw [← Function.update_eq_self true fun _ => Logs.empty] at hfresh
  exact exists_holds (m := slashedEntry) hfresh rfl fun _ _ _ hrange => hrange

theorem exists_mixed : ∃ s : (pair .redb).Stores,
    (pair .redb).Settled (Function.update (fun _ => Logs.empty) true mixedLogs) s := by
  obtain ⟨s, hs⟩ := exists_slashed
  exact exists_holds (m := splitEntry) hs rfl fun _ _ _ hrange => hrange

omit [Formats] in
/-- One message of another origin in a log keeps it from being replicated. -/
theorem mixed_log_not_replicated : letI := Serde.formats
    ∃ s : (pair .redb).Stores, (∀ x, Reachable (s x)) ∧ ((pair .redb).view s true).Honest ∧
      (∀ k n, ((pair .redb).view s false).message k n = none) ∧
      (∀ head, head ∈ [⟨⟨"t"⟩, splitNode, 2⟩] ↔ ((pair .redb).view s true).IsHead head) ∧
      ∃ e s', Runs ((pair .redb).smooth.Answers false) s
        (syncHeads ⟨"peer", none⟩ 10 [protoTopicHead ⟨⟨"t"⟩, splitNode, 2⟩]) (.error e) s' := by
  let := Serde.formats
  obtain ⟨s, hs⟩ := exists_mixed
  have hpeer : (pair .redb).view s true = mixedLogs := by rw [hs.2, Function.update_self]
  have hmine : (pair .redb).view s false = Logs.empty := by rw [hs.2]; rfl
  have hlisted : ∀ head, head ∈ [⟨⟨"t"⟩, splitNode, 2⟩] ↔ ((pair .redb).view s true).IsHead head := by
    intro head
    rw [hpeer, isHead_mixedLogs, List.mem_singleton]
  have hhonest : ((pair .redb).view s true).Honest := hpeer ▸ honest_mixedLogs
  have hresolve : (pair .redb).resolve (PeerSpec.endpoint ⟨"peer", none⟩) = some true := rfl
  have hheads := fun head hmem => (hlisted head).mp hmem
  refine ⟨s, hs.1, hhonest, fun k n => by rw [hmine]; rfl, hlisted, ?_⟩
  obtain ⟨out, s', hruns⟩ := exists_runs_syncHeads (i := false) (by decide) hs.1 (by decide) hhonest
    hresolve (List.nodup_singleton _) hheads 10
  have hinv : (pair .redb).Inv s := fun x => Backend.inv_of_reachable (hs.1 x)
  rcases handles_of_runs hinv (by decide) hhonest hresolve (hheads _ (List.mem_singleton_self _))
    hruns with ⟨⟨e, rfl⟩, -⟩ | ⟨-, ⟨hreplicable, -⟩ | ⟨hempty, -⟩⟩
  · exact ⟨e, s', hruns⟩
  · rw [hmine, hpeer] at hreplicable
    exact absurd hreplicable (not_replicable_mixed rfl)
  · exact absurd hempty (by decide)

omit [Formats] in
/-- A log with one message is replicated. -/
theorem catches_up_first : letI := Serde.formats
    ∃ s s' : (pair .redb).Stores, ((pair .redb).view s true).IsHead ⟨⟨"t"⟩, slashedNode, 1⟩ ∧
      Runs ((pair .redb).smooth.Answers false) s
        (syncHeads ⟨"peer", none⟩ 0 [protoTopicHead ⟨⟨"t"⟩, slashedNode, 1⟩]) (.ok ()) s' ∧
      (pair .redb).view s' false =
        Logs.caughtUp ((pair .redb).view s false) ((pair .redb).view s true) := by
  let := Serde.formats
  obtain ⟨s, hs⟩ := exists_slashed
  have hpeer : (pair .redb).view s true = slashedLogs := by rw [hs.2, Function.update_self]
  have hlisted : ∀ head, head ∈ [⟨⟨"t"⟩, slashedNode, 1⟩] ↔
      ((pair .redb).view s true).IsHead head := by
    intro head
    rw [hpeer, isHead_slashedLogs, List.mem_singleton]
  have hresolve : (pair .redb).resolve (PeerSpec.endpoint ⟨"peer", none⟩) = some true := rfl
  obtain ⟨hexact, hexists⟩ := catches_up_iff (i := false)
    (fun x => Backend.inv_of_reachable (hs.1 x)) (by decide) (hpeer ▸ honest_slashedLogs) hresolve
    (List.nodup_singleton _) hlisted 0
  obtain ⟨out, s', hruns⟩ := hexists (by decide) hs.1
  have hreplicable : ∀ head ∈ [⟨⟨"t"⟩, slashedNode, 1⟩],
      Logs.Replicable ((pair .redb).view s false) ((pair .redb).view s true) head := by
    intro head hmem hbehind
    rw [List.mem_singleton.mp hmem, hpeer]
    refine ⟨by decide, ?_⟩
    intro n m hn hm
    rw [slashedLogs, Logs.write_message] at hm
    split_ifs at hm with hnew
    · cases hm
      rfl
    · cases hm
  obtain ⟨rfl, hcaught⟩ := (hexact out s' hruns).mpr hreplicable
  exact ⟨s, s', (hlisted _).mp (List.mem_singleton_self _), hruns, hcaught⟩

end Network

end Msgbus

import Msgbus.Network.Markers

/-!
# The replay of delete logs

`replay_control_messages` reads the delete logs of a store page by page and
applies their markers, which may flag messages of the very logs that are read.
One rule covers every run: with what a run may be answered as parameters, it
deals with every marker of the store, flags nothing that no marker asks for and
comes to an end.  A run that succeeded leaves a store on which the next one
succeeds and changes nothing.
-/

namespace Msgbus

open Program

/-! ## Logs before and after -/

namespace Logs

variable {b b' b₁ b₂ b₃ : Logs} {k : LogKey} {n : UInt64}

/-- Only flags and recorded ranges differ. -/
structure UpToFlags (b b' : Logs) : Prop extends b.Grows b' where
  head_eq : b'.head = b.head

theorem UpToFlags.refl (b : Logs) : b.UpToFlags b := ⟨.refl b, rfl⟩

theorem UpToFlags.trans (h₁ : b₁.UpToFlags b₂) (h₂ : b₂.UpToFlags b₃) : b₁.UpToFlags b₃ :=
  ⟨h₁.toGrows.trans h₂.toGrows, h₂.head_eq.trans h₁.head_eq⟩

theorem upToFlags_mark (b : Logs) (k : LogKey) (first last : UInt64) :
    b.UpToFlags (b.mark k first last) := ⟨grows_mark first last, rfl⟩

theorem UpToFlags.current_eq (h : b.UpToFlags b') (k : LogKey) : b'.current k = b.current k := by
  rw [current, h.head_eq, current]

theorem UpToFlags.message_before (h : b.UpToFlags b') (hb : b.WellFormed) (hb' : b'.WellFormed)
    {m' : StoredMessage} (hm' : b'.message k n = some m') :
    ∃ m, b.message k n = some m ∧ m.Keeps m' := by
  have hbounds := (hb'.contiguous k n).mp (by rw [hm']; rfl)
  rw [h.current_eq] at hbounds
  obtain ⟨m, hm⟩ := Option.isSome_iff_exists.mp ((hb.contiguous k n).mpr hbounds)
  obtain ⟨other, hother, hkeeps⟩ := h.message k n m hm
  rw [hm', Option.some.injEq] at hother
  subst hother
  exact ⟨m, hm, hkeeps⟩

theorem UpToFlags.message_but_flag (h : b.UpToFlags b') (hb : b.WellFormed)
    (hb' : b'.WellFormed) (k : LogKey) (n : UInt64) :
    (b'.message k n).map (·.withDeleted false) = (b.message k n).map (·.withDeleted false) := by
  cases hm' : b'.message k n with
  | none => rw [h.toGrows.message_eq_none hm']
  | some m' =>
      obtain ⟨m, hm, hkeeps⟩ := h.message_before hb hb' hm'
      rw [hm, hkeeps.1]
      rfl

theorem UpToFlags.isHead (h : b.UpToFlags b') (hb : b.WellFormed) (hb' : b'.WellFormed)
    {head : TopicHead} (hhead : b'.IsHead head) : b.IsHead head := by
  obtain ⟨k, m', hk, hm', htopic, horigin⟩ := hhead
  obtain ⟨m, hm, hkeeps⟩ := h.message_before hb hb' hm'
  rw [h.head_eq] at hk
  rw [hkeeps.1] at htopic horigin
  exact ⟨k, m, hk, hm, htopic, horigin⟩

end Logs

variable [Formats]

def Logs.Asked (b : Logs) (k : LogKey) (n : UInt64) : Prop :=
  ∃ k' n' marker range, b.message k' n' = some marker ∧ StoredMessage.Marks marker range ∧
    LogKey.of range.topic range.origin = k ∧ range.fromHeadId ≤ n ∧ n ≤ range.toHeadId

/-- Only messages were flagged that a marker asks to delete. -/
structure Logs.Replayed (b b' : Logs) : Prop extends b.UpToFlags b' where
  only : ∀ k n m, b'.message k n = some m → b.message k n = some m ∨ b.Asked k n

theorem Logs.Replayed.refl (b : Logs) : b.Replayed b := ⟨.refl b, fun _ _ _ => Or.inl⟩

theorem Logs.Replayed.mark {b b' : Logs} (h : b.Replayed b') {k : LogKey} {n : UInt64}
    {m : StoredMessage} {range : TombstoneRange} (hm : b.message k n = some m)
    (hmarks : m.Marks range) :
    b.Replayed (b'.mark (LogKey.of range.topic range.origin) range.fromHeadId range.toHeadId) := by
  refine ⟨h.toUpToFlags.trans (Logs.upToFlags_mark _ _ _ _), ?_⟩
  intro k' n' m' hm'
  rw [Logs.mark_message] at hm'
  obtain ⟨old, hold, rfl⟩ := Option.map_eq_some_iff.mp hm'
  by_cases hin : k' = LogKey.of range.topic range.origin ∧ range.fromHeadId ≤ n' ∧ n' ≤ range.toHeadId
  · exact Or.inr ⟨k, n, m, range, hm, hmarks, hin.1.symm, hin.2⟩
  · rw [decide_eq_false hin, Bool.or_false]
    exact h.only k' n' old hold

theorem Logs.Replayed.message_eq {b b' : Logs} (h : b.Replayed b') (hb : b.WellFormed)
    (hb' : b'.WellFormed) (hcovered : ∀ k n, b.Asked k n → b.Covers k n) :
    b'.message = b.message := by
  funext k n
  cases hm' : b'.message k n with
  | none => rw [h.toGrows.message_eq_none hm']
  | some m' =>
      rcases h.only k n m' hm' with hsame | hasked
      · exact hsame.symm
      · obtain ⟨m, hm, hkeeps⟩ := h.message_before hb hb' hm'
        have hdeleted := hb.covered k n m hm (hcovered k n hasked)
        have hsame : m' = m := by
          rw [hkeeps.1, hkeeps.2 hdeleted, ← hdeleted]
          rfl
        rw [hm, hsame]

/-! ## What the calls of a replay need -/

namespace StorageKind

variable {kind : StorageKind} {s : kind.Store} {env : CallEnv}

def ListsHeads (kind : StorageKind) (b : Logs) : Prop :=
  kind = .sqlite → ∀ head, b.IsHead head → ValidPart head.topic.value

def TakesRange (kind : StorageKind) (range : TombstoneRange) : Prop :=
  range.fromHeadId ≤ range.toHeadId ∧ range.toHeadId.toNat ≤ kind.counterLimit

theorem listHeads_ok_iff (hs : kind.Inv s) :
    (∃ result, StoreOp.listHeads.exec s env = .ok result) ↔ kind.ListsHeads (kind.logs s) := by
  cases kind with
  | redb =>
      have hrun : ∃ r s', StoreOp.listHeads.exec s env = .ok (r, s') :=
        Backend.exec_eq_ok hs rfl trivial rfl
      obtain ⟨r, s', hexec⟩ := hrun
      refine ⟨fun _ hkind => ?_, fun _ => ⟨_, hexec⟩⟩
      cases hkind
  | sqlite =>
      have hrun : (∃ result, StoreOp.listHeads.exec (s : Sqlite) env = .ok result) ↔
          ∃ r, Sqlite.listHeads s = .ok r :=
        Except.exists_map_ok_iff
      rw [hrun, Sqlite.listHeads_ok_iff hs]
      exact ⟨fun hvalid _ => hvalid, fun hlists => hlists rfl⟩

theorem tombstoneRange_ok_iff (hs : kind.Inv s) {range : TombstoneRange} :
    (∃ result, range.op.exec s env = .ok result) ↔
      kind.TakesRange range ∧ env.now.toNat ≤ kind.counterLimit := by
  cases kind with
  | redb =>
      constructor
      · rintro ⟨⟨r, s'⟩, hexec⟩
        obtain ⟨hle, -⟩ := (Backend.refines hs hexec).2
        exact ⟨⟨hle, toNat_le_counterLimit_redb _⟩, toNat_le_counterLimit_redb _⟩
      · rintro ⟨⟨hle, -⟩, -⟩
        have hrun : ∃ r s', range.op.exec s env = .ok (r, s') :=
          Backend.exec_eq_ok hs rfl trivial (if_neg (UInt64.not_lt.mpr hle))
        obtain ⟨r, s', hexec⟩ := hrun
        exact ⟨_, hexec⟩
  | sqlite =>
      refine (Sqlite.tombstoneRange_ok_iff hs).trans ?_
      constructor
      · rintro ⟨hle, -, hlast, hnow⟩
        exact ⟨⟨hle, hlast⟩, hnow⟩
      · rintro ⟨⟨hle, hlast⟩, hnow⟩
        exact ⟨hle, Nat.le_trans (UInt64.le_iff_toNat_le.mp hle) hlast, hlast, hnow⟩

/-! ## One rule for every run -/

def StoreCall (_ : kind.Store) : Command → Prop
  | .store _ => True
  | _ => False

/-- The outcome is a result with `post`, or an error where one may happen. -/
def Ends {α : Type} (Fails : Prop) (post : α → kind.Store → Prop) :
    Except Status α → kind.Store → Prop
  | .ok a, s => post a s
  | .error _, _ => Fails

def Obeys (answers : kind.Store → (c : Command) → c.Answer → kind.Store → Prop) (Fails : Prop)
    (s : kind.Store) (op : StoreOp) : Prop :=
  ∀ (answer : Except MsgbusError op.Result) s', answers s (.store op) answer s' →
    (∃ env r, op.exec s env = .ok (r, s') ∧ answer = .ok r) ∨ Fails ∧ ∃ e, answer = .error e

/-- The store is the one with the logs `b` on which a replay started, but for
what the replay has flagged. -/
structure Replaying (kind : StorageKind) (b : Logs) (s : kind.Store) : Prop where
  inv : kind.Inv s
  replayed : b.Replayed (kind.logs s)

/-- Every call that a replay of the logs `b` makes is obeyed, its markers can be
honoured where nothing may fail, and no delete log is full. -/
structure Goes (answers : kind.Store → (c : Command) → c.Answer → kind.Store → Prop)
    (Fails : Prop) (b : Logs) : Prop where
  wellFormed : b.WellFormed
  list : ∀ s, kind.Replaying b s → Obeys answers Fails s .listHeads
  fetch : ∀ s head first, kind.Replaying b s → b.IsHead head → head.topic = deleteTopic →
    first ≤ head.headId → Obeys answers Fails s (.fetchMessages ⟨head.topic, head.origin, first, 1000⟩)
  apply : ∀ s k n m range, kind.Replaying b s → b.message k n = some m → m.Marks range →
    Obeys answers Fails s range.op
  control : ∀ k n m e, b.message k n = some m → controlRange m = .error e → Fails
  below : ∀ head, b.IsHead head → head.topic = deleteTopic → head.headId ≠ UInt64.maxValue

def Applied (kind : StorageKind) (b : Logs) (m : StoredMessage) : Prop :=
  controlRange m = .ok none ∨ ∃ range, m.Marks range ∧ kind.TakesRange range ∧
    b.tombstone (LogKey.of range.topic range.origin) range.fromHeadId range.toHeadId

structure Handled (kind : StorageKind) (b : Logs) (m : StoredMessage) : Prop where
  reads : kind.ReadsBack m
  applied : kind.Applied b m

section Rule

variable {answers : kind.Store → (c : Command) → c.Answer → kind.Store → Prop} {Fails : Prop}
variable {b b' : Logs} {m m' : StoredMessage} {s s' : kind.Store}

/-- A flag that was raised since leaves nothing to apply. -/
theorem eq_of_control_ne (hkeeps : m.Keeps m') (h : controlRange m' ≠ .ok none) : m = m' := by
  apply hkeeps.eq_of_not_deleted
  rw [← Bool.not_eq_true]
  exact fun hdeleted => h (controlRange_eq_none_iff.mpr (Or.inr hdeleted))

theorem Applied.later (h : kind.Applied b m) (hgrows : b.Grows b') : kind.Applied b' m := by
  rcases h with hnone | ⟨range, hmarks, htakes, hrecorded⟩
  · exact Or.inl hnone
  · exact Or.inr ⟨range, hmarks, htakes, hgrows.tombstone _ _ _ hrecorded⟩

theorem Applied.keeps (h : kind.Applied b m) (hkeeps : m.Keeps m') : kind.Applied b m' := by
  by_cases hnone : controlRange m' = .ok none
  · exact Or.inl hnone
  · rw [← eq_of_control_ne hkeeps hnone]
    exact h

omit [Formats] in
theorem ReadsBack.keeps (h : kind.ReadsBack m) (hkeeps : m.Keeps m') : kind.ReadsBack m' := by
  rw [hkeeps.1]
  exact h

theorem Handled.later (h : kind.Handled b m) (hgrows : b.Grows b') (hkeeps : m.Keeps m') :
    kind.Handled b' m' :=
  ⟨h.reads.keeps hkeeps, (h.applied.later hgrows).keeps hkeeps⟩

theorem performs_call {op : StoreOp} (h : Obeys answers Fails s op)
    {post : op.Result → kind.Store → Prop}
    (hpost : ∀ env r s', op.exec s env = .ok (r, s') → post r s') :
    Performs answers StoreCall (callStoreStatus op) (Ends Fails post) s := by
  refine Performs.mapError ⟨trivial, ?_⟩
  intro answer s' hanswer
  rcases h answer s' hanswer with ⟨env, r, hexec, rfl⟩ | ⟨hfails, e, rfl⟩
  · exact hpost env r s' hexec
  · exact hfails

omit [Formats] in
theorem performs_then {α β : Type} {p : Server Status α} {f : α → Server Status β}
    {post : α → kind.Store → Prop} {post' : β → kind.Store → Prop}
    (hp : Performs answers StoreCall p (Ends Fails post) s)
    (hf : ∀ a s', post a s' → Performs answers StoreCall (f a) (Ends Fails post') s') :
    Performs answers StoreCall (p >>= f) (Ends Fails post') s :=
  hp.bind hf fun _ _ hfails => hfails

structure Continues (b : Logs) (s s' : kind.Store) : Prop where
  replaying : kind.Replaying b s'
  flags : (kind.logs s).UpToFlags (kind.logs s')

theorem Continues.refl (hs : kind.Replaying b s) : Continues b s s := ⟨hs, .refl _⟩

theorem Continues.trans {s₁ s₂ s₃ : kind.Store} (h₁ : Continues b s₁ s₂) (h₂ : Continues b s₂ s₃) :
    Continues b s₁ s₃ := ⟨h₂.replaying, h₁.flags.trans h₂.flags⟩

theorem continues_of_logs_eq (hs : kind.Replaying b s) (hinv : kind.Inv s')
    (hlogs : kind.logs s' = kind.logs s) : Continues b s s' := by
  refine ⟨⟨hinv, ?_⟩, ?_⟩
  · rw [hlogs]
    exact hs.replayed
  · rw [hlogs]
    exact .refl _

theorem Replaying.wellFormed (hs : kind.Replaying b s) : (kind.logs s).WellFormed :=
  Backend.wellFormed hs.inv

theorem Goes.performs_applyControlMessage (hgoes : Goes answers Fails b)
    (hs : kind.Replaying b s) {k : LogKey} {n : UInt64} (hm : b.message k n = some m)
    (hkeeps : m.Keeps m') :
    Performs answers StoreCall (applyControlMessage m')
      (Ends Fails fun _ s' => Continues b s s' ∧ kind.Applied (kind.logs s') m') s := by
  unfold applyControlMessage
  cases hcontrol : controlRange m' with
  | error e =>
      have hsame : m = m' := eq_of_control_ne hkeeps (by rw [hcontrol]; simp)
      exact hgoes.control k n m e hm (hsame ▸ hcontrol)
  | ok found =>
      cases found with
      | none => exact ⟨.refl hs, Or.inl hcontrol⟩
      | some range =>
          have hsame : m = m' := eq_of_control_ne hkeeps (by rw [hcontrol]; simp)
          subst hsame
          refine performs_then (performs_call (hgoes.apply s k n m range hs hm hcontrol) ?_)
            fun _ s' hpost => hpost
          intro env r s' hexec
          obtain ⟨hinv, hle, -, hmark⟩ := Backend.refines hs.inv hexec
          have htakes := ((kind.tombstoneRange_ok_iff hs.inv).mp ⟨_, hexec⟩).1
          have hlogs : kind.logs s' = (kind.logs s).mark (LogKey.of range.topic range.origin)
            range.fromHeadId range.toHeadId := hmark
          refine ⟨⟨⟨hinv, ?_⟩, ?_⟩, Or.inr ⟨range, hcontrol, htakes, ?_⟩⟩
          · rw [hlogs]
            exact hs.replayed.mark hm hcontrol
          · rw [hlogs]
            exact Logs.upToFlags_mark _ _ _ _
          · rw [hlogs]
            exact Or.inr ⟨rfl, rfl, rfl⟩

theorem Goes.performs_applyBatch (hgoes : Goes answers Fails b) (hs : kind.Replaying b s)
    {messages : List StoredMessage}
    (hmessages : ∀ m' ∈ messages, ∃ k n m, b.message k n = some m ∧ m.Keeps m')
    (fromHeadId : UInt64) :
    Performs answers StoreCall (applyBatch fromHeadId messages)
      (Ends Fails fun next s' => Continues b s s' ∧
        (∀ m ∈ messages, kind.Applied (kind.logs s') m) ∧
        next = messages.getLast?.elim fromHeadId (·.headId.saturatingAdd 1)) s := by
  induction messages generalizing s fromHeadId with
  | nil =>
      refine ⟨.refl hs, ?_, rfl⟩
      intro m hm
      cases hm
  | cons first rest ih =>
      obtain ⟨k, n, m, hm, hkeeps⟩ := hmessages first List.mem_cons_self
      refine performs_then (hgoes.performs_applyControlMessage hs hm hkeeps) ?_
      rintro u s₁ ⟨hfirst, happlied⟩
      have hrest := ih hfirst.replaying (fun m' hm' => hmessages m' (List.mem_cons_of_mem _ hm'))
        (first.headId.saturatingAdd 1)
      refine hrest.consequence ?_
      rintro (e | next) s₂ hends
      · exact hends
      · obtain ⟨hcontinues, hall, hnext⟩ := hends
        refine ⟨hfirst.trans hcontinues, ?_, ?_⟩
        · intro m' hm'
          rcases List.mem_cons.mp hm' with rfl | hmem
          · exact happlied.later hcontinues.flags.toGrows
          · exact hall m' hmem
        · rw [hnext, List.getLast?_cons]
          cases rest.getLast? with
          | none => rfl
          | some last => rfl

theorem Replaying.current_eq (hs : kind.Replaying b s) (hb : b.WellFormed) {head : TopicHead}
    (hhead : b.IsHead head) :
    (kind.logs s).current (LogKey.of head.topic head.origin) = head.headId := by
  rw [hs.replayed.current_eq, hhead.current_eq hb]

/-- What a page leaves behind: everything before the start of the next page is
handled. -/
theorem handled_before {k : LogKey} {first last : UInt64} {limit : Nat} (hs : kind.Replaying b s)
    (hs' : Continues b s s') (hfirst : 1 ≤ first.toNat)
    (hearlier : ∀ n m, n.toNat < first.toNat → (kind.logs s).message k n = some m →
      kind.Handled (kind.logs s) m)
    (hpage : ∀ m ∈ (kind.logs s).window k first limit, kind.Handled (kind.logs s') m)
    (hlast : last.toNat < first.toNat + limit) {n : UInt64} {m' : StoredMessage}
    (hn : n.toNat ≤ last.toNat) (hm' : (kind.logs s').message k n = some m') :
    kind.Handled (kind.logs s') m' := by
  obtain ⟨m, hm, hkeeps⟩ :=
    hs'.flags.message_before hs.wellFormed hs'.replaying.wellFormed hm'
  by_cases hlt : n.toNat < first.toNat
  · exact (hearlier n m hlt hm).later hs'.flags.toGrows hkeeps
  · have hmem := Logs.mem_window hs.wellFormed hfirst hm (by omega) (Nat.lt_of_le_of_lt hn hlast)
    exact (hpage m hmem).later (.refl _) hkeeps

theorem Goes.performs_fetchPage (hgoes : Goes answers Fails b) (hs : kind.Replaying b s)
    {head : TopicHead} (hhead : b.IsHead head) (htopic : head.topic = deleteTopic)
    {first : UInt64} (hfirst : 1 ≤ first.toNat) (hmore : first ≤ head.headId) :
    Performs answers StoreCall
      (callStoreStatus (.fetchMessages ⟨head.topic, head.origin, first, 1000⟩))
      (Ends Fails fun (page : List StoredMessage) s' => Continues b s s' ∧ page ≠ [] ∧
        page = (kind.logs s).window (LogKey.of head.topic head.origin) first 1000 ∧
        ∀ m ∈ page, kind.ReadsBack m) s := by
  refine performs_call (hgoes.fetch s head first hs hhead htopic hmore) ?_
  rintro env (page : List StoredMessage) s₁ hexec
  obtain ⟨hinv, hpage, hlogs⟩ := Backend.refines hs.inv hexec
  have hwindow : page =
    (kind.logs s).window (LogKey.of head.topic head.origin) first 1000 := hpage
  have hreads := ((kind.fetch_ok_iff hs.inv).mp ⟨_, hexec⟩).2
  -- the position the round starts at is stored
  have hstored : ((kind.logs s).message (LogKey.of head.topic head.origin) first).isSome := by
    rw [hs.wellFormed.contiguous, hs.current_eq hgoes.wellFormed hhead]
    exact ⟨hfirst, UInt64.le_iff_toNat_le.mp hmore⟩
  obtain ⟨m, hm⟩ := Option.isSome_iff_exists.mp hstored
  refine ⟨continues_of_logs_eq hs hinv hlogs, ?_, hwindow, ?_⟩
  · rw [hwindow]
    exact List.ne_nil_of_mem (Logs.mem_window hs.wellFormed hfirst hm (Nat.le_refl _) (by omega))
  · rw [hwindow]
    exact hreads

/-- A round of a delete log handles a page of it and moves on, so the rounds come
to an end and leave the whole log handled. -/
theorem Goes.performs_replayLog (hgoes : Goes answers Fails b) (hs : kind.Replaying b s)
    {head : TopicHead} (hhead : b.IsHead head) (htopic : head.topic = deleteTopic) {fuel : Nat}
    {fromHeadId : UInt64} (hfirst : 1 ≤ fromHeadId.toNat)
    (hfuel : 2 ^ 64 ≤ fuel + fromHeadId.toNat)
    (hearlier : ∀ n m, n.toNat < fromHeadId.toNat →
      (kind.logs s).message (LogKey.of head.topic head.origin) n = some m →
        kind.Handled (kind.logs s) m) :
    Performs answers StoreCall (replayLog head fuel fromHeadId)
      (Ends Fails fun r s' => r = some () ∧ Continues b s s' ∧
        ∀ n m, (kind.logs s').message (LogKey.of head.topic head.origin) n = some m →
          kind.Handled (kind.logs s') m) s := by
  induction fuel generalizing s fromHeadId with
  | zero =>
      have hlt := fromHeadId.toNat_lt
      omega
  | succ fuel ih =>
      have hcurrent := hs.current_eq hgoes.wellFormed hhead
      unfold replayLog
      split_ifs with hmore
      · refine performs_then (hgoes.performs_fetchPage hs hhead htopic hfirst hmore) ?_
        rintro page s₁ ⟨hs₁, hne, hpage, hreads⟩
        have hmem : ∀ m ∈ page,
            (kind.logs s).message (LogKey.of head.topic head.origin) m.headId = some m := by
          intro m hm
          exact Logs.message_of_mem_window hs.wellFormed (hpage ▸ hm)
        rw [if_neg fun hempty => hne (List.isEmpty_iff.mp hempty)]
        refine performs_then (hgoes.performs_applyBatch hs₁.replaying (fun m' hm' => ?_)
          fromHeadId) ?_
        · obtain ⟨m, hm, hkeeps⟩ := hs.replayed.message_before hgoes.wellFormed hs.wellFormed
            (hmem m' hm')
          exact ⟨_, _, m, hm, hkeeps⟩
        · rintro next s₂ ⟨hs₂, happlied, hnext⟩
          have hcontinues := hs₁.trans hs₂
          have hlast := List.getLast_mem hne
          have hwindow : page.getLast hne ∈
              (kind.logs s).window (LogKey.of head.topic head.origin) fromHeadId 1000 := by
            rw [← hpage]
            exact hlast
          have hle := Logs.le_headId_of_mem_window hs.wellFormed hfirst hwindow
          have hlt := Logs.headId_lt_of_mem_window hs.wellFormed hfirst hwindow
          -- the last message of the page is not at the limit, so the next page is past it
          have hbelow : (page.getLast hne).headId ≠ UInt64.maxValue := by
            intro hmax
            have hbounds := (hs.wellFormed.contiguous _ _).mp (by rw [hmem _ hlast]; rfl)
            have hlimit := head.headId.toNat_lt
            apply hgoes.below head hhead htopic
            rw [hcurrent, hmax, UInt64.toNat_maxValue] at hbounds
            rw [← UInt64.toNat_inj, UInt64.toNat_maxValue]
            omega
          rw [List.getLast?_eq_some_getLast hne, Option.elim_some] at hnext
          have hsucc : next.toNat = (page.getLast hne).headId.toNat + 1 := by
            rw [hnext]
            exact UInt64.toNat_saturatingAdd_one_of_ne hbelow
          refine (ih hcontinues.replaying (by omega) (by omega) ?_).consequence ?_
          · intro n m hn hm
            refine handled_before hs hcontinues hfirst hearlier ?_ hlt (by omega) hm
            intro m' hm'
            rw [← hpage] at hm'
            exact ⟨hreads m' hm', happlied m' hm'⟩
          · rintro (e | r) s₃ hends
            · exact hends
            · exact ⟨hends.1, hcontinues.trans hends.2.1, hends.2.2⟩
      · refine ⟨rfl, .refl hs, ?_⟩
        intro n m hm
        have hbounds := (hs.wellFormed.contiguous _ n).mp (by rw [hm]; rfl)
        rw [hcurrent] at hbounds
        rw [UInt64.le_iff_toNat_le] at hmore
        exact hearlier n m (by omega) hm

theorem Goes.performs_replayLogs (hgoes : Goes answers Fails b) (hs : kind.Replaying b s)
    {fuel : Nat} (hfuel : 2 ^ 64 ≤ fuel) {heads : List TopicHead}
    (hheads : ∀ head ∈ heads, b.IsHead head ∧ head.topic = deleteTopic) :
    Performs answers StoreCall (replayLogs fuel heads)
      (Ends Fails fun r s' => r = some () ∧ Continues b s s' ∧ ∀ head ∈ heads, ∀ n m,
        (kind.logs s').message (LogKey.of head.topic head.origin) n = some m →
          kind.Handled (kind.logs s') m) s := by
  induction heads generalizing s with
  | nil =>
      refine ⟨rfl, .refl hs, ?_⟩
      intro head hhead
      cases hhead
  | cons head rest ih =>
      obtain ⟨hhead, htopic⟩ := hheads head List.mem_cons_self
      have hnone : ∀ n m, n.toNat < (1 : UInt64).toNat →
          (kind.logs s).message (LogKey.of head.topic head.origin) n = some m →
            kind.Handled (kind.logs s) m := by
        intro n m hlt hm
        have hpos := ((hs.wellFormed.contiguous _ n).mp (by rw [hm]; rfl)).1
        rw [show (1 : UInt64).toNat = 1 from rfl] at hlt
        omega
      refine performs_then (hgoes.performs_replayLog hs hhead htopic (Nat.le_refl 1)
        (Nat.le_trans hfuel (Nat.le_add_right _ _)) hnone) ?_
      rintro done s₁ ⟨rfl, hs₁, hlog⟩
      have hrest := ih hs₁.replaying fun head' h => hheads head' (List.mem_cons_of_mem _ h)
      refine hrest.consequence ?_
      rintro (e | r) s₂ hends
      · exact hends
      · obtain ⟨hr, hs₂, hlogs⟩ := hends
        refine ⟨hr, hs₁.trans hs₂, ?_⟩
        intro head' hhead' n m' hm'
        rcases List.mem_cons.mp hhead' with rfl | hmem
        · obtain ⟨m, hm, hkeeps⟩ :=
            hs₂.flags.message_before hs₁.replaying.wellFormed hs₂.replaying.wellFormed hm'
          exact (hlog n m hm).later hs₂.flags.toGrows hkeeps
        · exact hlogs head' hmem n m' hm'

theorem Goes.performs_replayControlMessages (hgoes : Goes answers Fails (kind.logs s))
    (hs : kind.Inv s) {fuel : Nat} (hfuel : 2 ^ 64 ≤ fuel) :
    Performs answers StoreCall (replayControlMessages fuel)
      (Ends Fails fun r s' => r = some () ∧ kind.Replaying (kind.logs s) s' ∧
        kind.ListsHeads (kind.logs s) ∧ ∀ k n m, (kind.logs s').message k n = some m →
          m.topic = deleteTopic → kind.Handled (kind.logs s') m) s := by
  have hreplaying : kind.Replaying (kind.logs s) s := ⟨hs, .refl _⟩
  have hlist : Performs answers StoreCall (callStoreStatus .listHeads)
      (Ends Fails fun (heads : List TopicHead) s' => Continues (kind.logs s) s s' ∧
        kind.ListsHeads (kind.logs s) ∧ ∀ head, head ∈ heads ↔ (kind.logs s).IsHead head) s := by
    refine performs_call (hgoes.list s hreplaying) ?_
    rintro env (heads : List TopicHead) s₁ hexec
    obtain ⟨hinv, -, hmem, hlogs⟩ := Backend.refines hs hexec
    exact ⟨continues_of_logs_eq hreplaying hinv hlogs,
      (kind.listHeads_ok_iff hs).mp ⟨_, hexec⟩, hmem⟩
  refine performs_then hlist ?_
  rintro heads s₁ ⟨hs₁, hlists, hmem⟩
  refine (hgoes.performs_replayLogs hs₁.replaying hfuel ?_).consequence ?_
  · intro head hhead
    obtain ⟨hlisted, htopic⟩ := List.mem_filter.mp hhead
    exact ⟨(hmem head).mp hlisted, of_decide_eq_true htopic⟩
  · rintro (e | r) s₂ hends
    · exact hends
    · obtain ⟨hr, hs₂, hlogs⟩ := hends
      refine ⟨hr, hs₂.replaying, hlists, ?_⟩
      intro k n m' hm' htopic
      -- the log of the message is one of those listed
      obtain ⟨m, hm, hkeeps⟩ :=
        hs₂.replaying.replayed.message_before hgoes.wellFormed hs₂.replaying.wellFormed hm'
      obtain ⟨head, hhead, rfl⟩ := (Logs.exists_isHead_iff hgoes.wellFormed).mpr ⟨n, m, hm⟩
      have hlog := (hs₂.replaying.wellFormed.positioned _ n m' hm').2
      have hdelete : head.topic = deleteTopic :=
        (congrArg LogKey.topic hlog).symm.trans htopic
      exact hlogs head (List.mem_filter.mpr ⟨(hmem head).mpr hhead, decide_eq_true hdelete⟩) n m' hm'

end Rule

/-! ## Runs that may fail and runs that may not -/

/-- The answers of a database that does not fail, at times it can store. -/
def UndisturbedAnswers (kind : StorageKind) (s : kind.Store) :
    (c : Command) → c.Answer → kind.Store → Prop
  | .store op, answer, s' => ∃ env : CallEnv, ValidPart env.id.value ∧
      env.now.toNat ≤ kind.counterLimit ∧ answer = op.outcome s env ∧ s' = op.after s env
  | _, _, _ => False

theorem obeys_handler (s : kind.Store) (op : StoreOp) : Obeys HandlerAnswers True s op := by
  rintro answer s' (⟨env, -, rfl, rfl⟩ | ⟨message, rfl, -⟩)
  · cases hexec : op.exec s env with
    | ok result =>
        obtain ⟨r, t⟩ := result
        rw [StoreOp.after_of_ok hexec]
        exact Or.inl ⟨env, r, hexec, StoreOp.outcome_eq_ok.mpr ⟨t, hexec⟩⟩
    | error e => exact Or.inr ⟨trivial, e, StoreOp.outcome_eq_error.mpr hexec⟩
  · exact Or.inr ⟨trivial, _, rfl⟩

theorem obeys_undisturbed {op : StoreOp}
    (h : ∀ env : CallEnv, env.now.toNat ≤ kind.counterLimit →
      ∃ result, op.exec s env = .ok result) : Obeys kind.UndisturbedAnswers False s op := by
  rintro answer s' ⟨env, -, hnow, rfl, rfl⟩
  obtain ⟨⟨r, t⟩, hexec⟩ := h env hnow
  rw [StoreOp.after_of_ok hexec]
  exact Or.inl ⟨env, r, hexec, StoreOp.outcome_eq_ok.mpr ⟨t, hexec⟩⟩

theorem goes_handler (hs : kind.Inv s)
    (hbelow : ∀ k, k.topic = deleteTopic → (kind.logs s).current k ≠ UInt64.maxValue) :
    Goes (HandlerAnswers (σ := kind.Store)) True (kind.logs s) where
  wellFormed := Backend.wellFormed hs
  list := fun s' _ => obeys_handler s' _
  fetch := fun s' _ _ _ _ _ _ => obeys_handler s' _
  apply := fun s' _ _ _ _ _ _ _ => obeys_handler s' _
  control := fun _ _ _ _ _ _ => trivial
  below := by
    intro head hhead htopic
    rw [← hhead.current_eq (Backend.wellFormed hs)]
    exact hbelow _ htopic

/-- Nothing in the logs stops a replay. -/
structure Unimpeded (kind : StorageKind) (b : Logs) : Prop where
  lists : kind.ListsHeads b
  reads : ∀ k n m, b.message k n = some m → m.topic = deleteTopic → kind.ReadsBack m
  control : ∀ k n m, b.message k n = some m → m.topic = deleteTopic →
    controlRange m = .ok none ∨ ∃ range, m.Marks range ∧ kind.TakesRange range
  below : ∀ head, b.IsHead head → head.topic = deleteTopic → head.headId ≠ UInt64.maxValue

theorem Unimpeded.goes (h : kind.Unimpeded (kind.logs s)) (hs : kind.Inv s) :
    Goes kind.UndisturbedAnswers False (kind.logs s) where
  wellFormed := Backend.wellFormed hs
  list := by
    intro s' hs'
    refine obeys_undisturbed fun env _ => (kind.listHeads_ok_iff hs'.inv).mpr ?_
    intro hkind head hhead
    exact h.lists hkind head (hs'.replayed.isHead (Backend.wellFormed hs) hs'.wellFormed hhead)
  fetch := by
    intro s' head first hs' hhead htopic hfirst
    refine obeys_undisturbed fun env _ => (kind.fetch_ok_iff hs'.inv).mpr ⟨?_, ?_⟩
    · have hlimit := kind.current_le_counterLimit hs'.inv (LogKey.of head.topic head.origin)
      rw [hs'.current_eq (Backend.wellFormed hs) hhead] at hlimit
      exact Nat.le_trans (UInt64.le_iff_toNat_le.mp hfirst) hlimit
    · intro m' hm'
      have hstored := Logs.message_of_mem_window hs'.wellFormed hm'
      have hlog := (hs'.wellFormed.positioned _ _ m' hstored).2
      obtain ⟨m, hm, hkeeps⟩ :=
        hs'.replayed.message_before (Backend.wellFormed hs) hs'.wellFormed hstored
      have hdelete : m.topic = deleteTopic := by
        rw [hkeeps.1] at hlog
        exact (congrArg LogKey.topic hlog).trans htopic
      exact (h.reads _ _ m hm hdelete).keeps hkeeps
  apply := by
    intro s' k n m range hs' hm hmarks
    refine obeys_undisturbed fun env hnow => (kind.tombstoneRange_ok_iff hs'.inv).mpr ⟨?_, hnow⟩
    rcases h.control k n m hm (StoredMessage.marks_iff.mp hmarks).1 with
      hnone | ⟨other, hother, htakes⟩
    · cases hnone.symm.trans hmarks
    · cases hother.symm.trans hmarks
      exact htakes
  control := by
    intro k n m e hm herror
    by_cases htopic : m.topic = deleteTopic
    · rcases h.control k n m hm htopic with hnone | ⟨range, hmarks, -⟩
      · cases hnone.symm.trans herror
      · cases hmarks.symm.trans herror
    · cases (controlRange_eq_none_iff.mpr (Or.inl htopic)).symm.trans herror
  below := h.below

theorem exists_undisturbed (s : kind.Store) (c : Command) (h : StoreCall s c) :
    ∃ answer s', kind.UndisturbedAnswers s c answer s' := by
  cases c with
  | store op => exact ⟨_, _, ⟨0, 0, ⟨"m"⟩⟩, by decide, Nat.zero_le _, rfl, rfl⟩
  | _ => exact h.elim

theorem Unimpeded.runs (h : kind.Unimpeded (kind.logs s)) (hs : kind.Inv s) {fuel : Nat}
    (hfuel : 2 ^ 64 ≤ fuel) :
    (∃ s', Runs kind.UndisturbedAnswers s (replayControlMessages fuel) (.ok (some ())) s') ∧
      ∀ out s', Runs kind.UndisturbedAnswers s (replayControlMessages fuel) out s' →
        out = .ok (some ()) ∧ kind.Replaying (kind.logs s) s' := by
  have hperforms := (h.goes hs).performs_replayControlMessages hs hfuel
  have hall : ∀ out s', Runs kind.UndisturbedAnswers s (replayControlMessages fuel) out s' →
      out = .ok (some ()) ∧ kind.Replaying (kind.logs s) s' := by
    intro out s' hruns
    have hends := hperforms.of_runs hruns
    cases out with
    | error e => exact hends.elim
    | ok r => exact ⟨congrArg Except.ok hends.1, hends.2.1⟩
  obtain ⟨out, s', hruns⟩ := hperforms.exists_runs trivial
    (fun s c (_ : True) => exists_undisturbed s c) fun _ _ _ _ _ _ => trivial
  refine ⟨⟨s', ?_⟩, hall⟩
  rw [(hall out s' hruns).1] at hruns
  exact hruns

/-- `replay_control_messages` returns, and whenever it does it has succeeded. -/
def Restarts (kind : StorageKind) (s : kind.Store) : Prop :=
  ∃ fuel, (∃ s', Runs kind.UndisturbedAnswers s (replayControlMessages fuel) (.ok (some ())) s') ∧
    ∀ out s', Runs kind.UndisturbedAnswers s (replayControlMessages fuel) out s' →
      out = .ok (some ())

theorem Unimpeded.restarts (h : kind.Unimpeded (kind.logs s)) (hs : kind.Inv s) :
    kind.Restarts s := by
  obtain ⟨fuel, hfuel⟩ : ∃ fuel, 2 ^ 64 ≤ fuel := ⟨2 ^ 64, Nat.le_refl _⟩
  obtain ⟨hexists, hall⟩ := h.runs hs hfuel
  exact ⟨fuel, hexists, fun out s' hruns => (hall out s' hruns).1⟩

/-- The markers of a store are dealt with after a replay that succeeded, and
nothing stops the next one. -/
theorem unimpeded_of_replay {b : Logs} {s' : kind.Store} (hb : b.WellFormed)
    (hs' : kind.Replaying b s') (hlists : kind.ListsHeads b)
    (hbelow : ∀ k, k.topic = deleteTopic → b.current k ≠ UInt64.maxValue)
    (hhandled : ∀ k n m, (kind.logs s').message k n = some m → m.topic = deleteTopic →
      kind.Handled (kind.logs s') m) : kind.Unimpeded (kind.logs s') where
  lists := by
    intro hkind head hhead
    exact hlists hkind head (hs'.replayed.isHead hb hs'.wellFormed hhead)
  reads := fun k n m hm htopic => (hhandled k n m hm htopic).reads
  control := by
    intro k n m hm htopic
    rcases (hhandled k n m hm htopic).applied with hnone | ⟨range, hmarks, htakes, -⟩
    · exact Or.inl hnone
    · exact Or.inr ⟨range, hmarks, htakes⟩
  below := by
    intro head hhead htopic
    rw [← hhead.current_eq hs'.wellFormed, hs'.replayed.current_eq]
    exact hbelow _ htopic

theorem Handled.recorded {b : Logs} {m : StoredMessage} {range : TombstoneRange}
    (h : kind.Handled b m) (hmarks : m.Marks range) :
    b.tombstone (LogKey.of range.topic range.origin) range.fromHeadId range.toHeadId := by
  rcases h.applied with hnone | ⟨other, hother, -, hrecorded⟩
  · cases hnone.symm.trans hmarks
  · cases hother.symm.trans hmarks
    exact hrecorded

theorem deletesApplied_of_handled {b : Logs} (hb : b.WellFormed)
    (hhandled : ∀ k n m, b.message k n = some m → m.topic = deleteTopic → kind.Handled b m) :
    b.DeletesApplied := by
  intro k n m hm htopic hlive
  have hdealt := hhandled k n m hm htopic
  rcases hdealt.applied with hnone | ⟨range, hmarks, -, hrecorded⟩
  · rcases controlRange_eq_none_iff.mp hnone with hne | hdeleted
    · exact absurd htopic hne
    · rw [hlive] at hdeleted
      cases hdeleted
  · refine ⟨range, (StoredMessage.marks_iff.mp hmarks).2.2.1, hrecorded, ?_⟩
    intro n' m' hm' hfirst hlast
    exact hb.covered _ n' m' hm' ⟨_, _, hrecorded, hfirst, hlast⟩

end StorageKind

/-- A replay of any store whose heads are below the limit comes to an end.  If it
succeeds, every live marker has all stored messages of its range flagged, nothing
but flags has changed, and a replay of the result succeeds and changes no
message. -/
theorem replay_completes (kind : StorageKind) {s : kind.Store} (hs : kind.Inv s)
    (hbelow : ∀ k, (kind.logs s).current k ≠ UInt64.maxValue) {fuel : Nat}
    (hfuel : 2 ^ 64 ≤ fuel) :
    (∃ out s', Runs HandlerAnswers s (replayControlMessages fuel) out s') ∧
    ∀ out s', Runs HandlerAnswers s (replayControlMessages fuel) out s' →
      out ≠ .ok none ∧
      (out = .ok (some ()) →
        (kind.logs s').DeletesApplied ∧
        (kind.logs s').head = (kind.logs s).head ∧
        (∀ k n, ((kind.logs s').message k n).map (·.withDeleted false) =
          ((kind.logs s).message k n).map (·.withDeleted false)) ∧
        (∃ s'', Runs kind.UndisturbedAnswers s' (replayControlMessages fuel)
          (.ok (some ())) s'') ∧
        ∀ out' s'', Runs kind.UndisturbedAnswers s' (replayControlMessages fuel) out' s'' →
          out' = .ok (some ()) ∧ (kind.logs s'').message = (kind.logs s').message) := by
  have hwf : (kind.logs s).WellFormed := Backend.wellFormed hs
  have hmarkers : ∀ k : LogKey, k.topic = deleteTopic →
      (kind.logs s).current k ≠ UInt64.maxValue := fun k _ => hbelow k
  have hperforms := (StorageKind.goes_handler hs hmarkers).performs_replayControlMessages hs hfuel
  refine ⟨?_, ?_⟩
  · refine hperforms.exists_runs trivial (fun s c (_ : True) hcall => ?_) fun _ _ _ _ _ _ => trivial
    obtain ⟨answer, s', hanswer⟩ := StorageKind.exists_undisturbed s c hcall
    cases c with
    | store op =>
        obtain ⟨env, hid, -, hrest⟩ := hanswer
        exact ⟨answer, s', Or.inl ⟨env, hid, hrest⟩⟩
    | _ => exact hcall.elim
  · intro out s' hruns
    have hends := hperforms.of_runs hruns
    cases out with
    | error e => exact ⟨fun h => (by cases h), fun h => (by cases h)⟩
    | ok r =>
        obtain ⟨rfl, hs', hlists, hhandled⟩ := hends
        refine ⟨fun h => (by cases h), fun _ => ?_⟩
        have hnext := StorageKind.unimpeded_of_replay hwf hs' hlists hmarkers hhandled
        obtain ⟨hexists, hall⟩ := hnext.runs hs'.inv hfuel
        refine ⟨StorageKind.deletesApplied_of_handled hs'.wellFormed hhandled,
          hs'.replayed.head_eq, hs'.replayed.message_but_flag hwf hs'.wellFormed, hexists, ?_⟩
        intro out' s'' hruns'
        obtain ⟨hout, hs''⟩ := hall out' s'' hruns'
        refine ⟨hout, hs''.replayed.message_eq hs'.wellFormed hs''.wellFormed ?_⟩
        rintro k n ⟨k', n', marker, range, hmarker, hmarks, rfl, hfirst, hlast⟩
        have htopic := (StoredMessage.marks_iff.mp hmarks).1
        exact ⟨_, _, (hhandled k' n' marker hmarker htopic).recorded hmarks, hfirst, hlast⟩

def deletedOnce (kind : StorageKind) : kind.Store :=
  runCalls [(firstEnv, .tombstoneRangeWithMarker ⟨"t"⟩ ⟨"a", "b", "c"⟩ 1 1 deleteTopic
    ⟨"a", "b", "c"⟩)]

theorem deletedOnce_below (kind : StorageKind) (k : LogKey) :
    (kind.logs (deletedOnce kind)).current k ≠ UInt64.maxValue := by
  have hempty : (kind.logs (MsgbusStore.empty : kind.Store)).current k = 0 := by
    rw [show kind.logs (MsgbusStore.empty : kind.Store) = Logs.empty from Backend.logs_empty]
    rfl
  have hle : ((kind.logs (deletedOnce kind)).current k).toNat ≤ 1 := by
    unfold deletedOnce runCalls
    rcases Backend.after_cases (Backend.inv_empty (σ := kind.Store)) firstEnv
      (.tombstoneRangeWithMarker ⟨"t"⟩ ⟨"a", "b", "c"⟩ 1 1 deleteTopic ⟨"a", "b", "c"⟩) with
      ⟨r, -, -, hstep⟩ | hsame
    · have hstep' := Logs.step_current_le (Backend.wellFormed Backend.inv_empty) hstep k
      rw [show Backend.logs (MsgbusStore.empty : kind.Store) = _ from Backend.logs_empty] at hstep'
      exact hstep'
    · rw [List.foldl_cons, List.foldl_nil, hsame, hempty]
      decide
  intro hmax
  rw [hmax, UInt64.toNat_maxValue] at hle
  omega

omit [Formats] in
/-- A replay of a store with one marker comes to an end. -/
theorem replay_completes_once :
    letI := Serde.formats
    ∃ out s', Runs HandlerAnswers (deletedOnce .sqlite) (replayControlMessages (2 ^ 64)) out s' ∧
      out ≠ .ok none := by
  let := Serde.formats
  obtain ⟨⟨out, s', hruns⟩, hall⟩ := replay_completes .sqlite
    (Backend.inv_of_reachable (reachable_runCalls _)) (deletedOnce_below .sqlite)
    (Nat.le_refl (2 ^ 64))
  exact ⟨out, s', hruns, (hall out s' hruns).1⟩

end Msgbus

import Msgbus.Network.Runs
import Msgbus.Server.Loop

/-!
# Passes one after the other

A daemon makes its passes of synchronisation in sequence, while its clients go
on publishing.  What a pass records as synced never exceeds the head of the
store and never falls behind what was recorded before, whatever the peers
return and whichever calls fail, and no head is fetched from more often than it
is behind.
-/

namespace Msgbus

open Program

/-! ## A daemon and its passes -/

def Command.recorded : Command → Option PeerSyncState
  | store (.recordPeerSyncState state) => some state
  | _ => none

def Command.isFetch : Command → Bool
  | fetch _ _ => true
  | _ => false

structure PassEvent (kind : StorageKind) where
  command : Command
  answer : command.Answer
  after : kind.Store

/-- A store and the calls that passes have made on it, the last one first. -/
structure Session (kind : StorageKind) where
  store : kind.Store
  events : List (PassEvent kind)

namespace Session

variable {kind : StorageKind}

def records (t : Session kind) : List PeerSyncState :=
  t.events.filterMap fun event => event.command.recorded

def fetches (t : Session kind) : Nat := t.events.countP fun event => event.command.isFetch

end Session

def PeerSyncState.Within (state : PeerSyncState) (b : Logs) : Prop :=
  ∀ topic origin, state.topic = some topic → state.origin = some origin →
    state.lastSyncedHead.toNat ≤ (b.current (LogKey.of topic origin)).toNat

variable [Formats] {kind : StorageKind}

/-- Calls of other tasks, none of which records a sync state. -/
def Meanwhile (s s' : kind.Store) : Prop :=
  ∃ calls : List (CallEnv × StoreOp),
    (∀ call ∈ calls, (Command.store call.2).recorded = none) ∧ s' = runFrom s calls

/-- A store call may fail; what anything else returns is arbitrary. -/
def Answered (s : kind.Store) : (c : Command) → c.Answer → kind.Store → Prop
  | .store op, answer, s' => StoreAnswers s op answer s'
  | _, _, s' => s' = s

/-- How the calls of a pass are answered, after any calls of other tasks. -/
def PassAnswers (t : Session kind) (c : Command) (answer : c.Answer) (t' : Session kind) : Prop :=
  ∃ s, Meanwhile t.store s ∧ Answered s c answer t'.store ∧
    t'.events = ⟨c, answer, t'.store⟩ :: t.events

def Session.add (t : Session kind) (c : Command) (answer : c.Answer) (s' : kind.Store) :
    Session kind := ⟨s', ⟨c, answer, s'⟩ :: t.events⟩

theorem passAnswers_add {t : Session kind} {c : Command} {answer : c.Answer} {s' : kind.Store}
    (h : Answered t.store c answer s') : PassAnswers t c answer (t.add c answer s') :=
  ⟨t.store, ⟨[], fun _ hcall => absurd hcall List.not_mem_nil, rfl⟩, h, rfl⟩

/-- Any number of passes in sequence, each with any configuration and outcome. -/
inductive Passes : Session kind → Session kind → Prop where
  | none (t : Session kind) : Passes t t
  | pass {t t' t'' : Session kind} {config : PeerSyncConfig} {out : Except String Unit} :
      Passes t t' → Runs PassAnswers t' (syncOnce config) out t'' → Passes t t''

/-! ## Heads do not move back -/

structure HeadsKept (s s' : kind.Store) : Prop where
  inv : kind.Inv s'
  current : ∀ k, ((kind.logs s).current k).toNat ≤ ((kind.logs s').current k).toNat

theorem HeadsKept.refl {s : kind.Store} (hs : kind.Inv s) : HeadsKept s s :=
  ⟨hs, fun _ => Nat.le_refl _⟩

theorem HeadsKept.trans {s₁ s₂ s₃ : kind.Store} (h₁ : HeadsKept s₁ s₂) (h₂ : HeadsKept s₂ s₃) :
    HeadsKept s₁ s₃ :=
  ⟨h₂.inv, fun k => Nat.le_trans (h₁.current k) (h₂.current k)⟩

theorem headsKept_after {s : kind.Store} (hs : kind.Inv s) (env : CallEnv) (op : StoreOp) :
    HeadsKept s (op.after s env) := by
  rcases Backend.after_cases hs env op with ⟨r, -, hinv, hstep⟩ | hsame
  · exact ⟨hinv, Logs.current_le_of_step hstep⟩
  · rw [hsame]
    exact .refl hs

theorem headsKept_runFrom {s : kind.Store} (hs : kind.Inv s) (calls : List (CallEnv × StoreOp)) :
    HeadsKept s (runFrom s calls) := by
  induction calls generalizing s with
  | nil => exact .refl hs
  | cons call rest ih =>
      have hfirst := headsKept_after hs call.1 call.2
      exact hfirst.trans (ih hfirst.inv)

theorem headsKept_answered {s s' : kind.Store} {c : Command} {answer : c.Answer} (hs : kind.Inv s)
    (h : Answered s c answer s') : HeadsKept s s' := by
  cases c with
  | store op =>
      rcases h with ⟨env, -, -, rfl⟩ | ⟨message, -, rfl⟩
      · exact headsKept_after hs env op
      · exact .refl hs
  | _ =>
      rw [show s' = s from h]
      exact .refl hs

theorem headsKept_passAnswers {t t' : Session kind} {c : Command} {answer : c.Answer}
    (ht : kind.Inv t.store) (h : PassAnswers t c answer t') : HeadsKept t.store t'.store := by
  obtain ⟨s, ⟨calls, -, rfl⟩, hanswer, -⟩ := h
  have hbefore := headsKept_runFrom ht calls
  exact hbefore.trans (headsKept_answered hbefore.inv hanswer)

omit [Formats] in
theorem PeerSyncState.Within.mono {state : PeerSyncState} {b b' : Logs} (h : state.Within b)
    (hle : ∀ k, (b.current k).toNat ≤ (b'.current k).toNat) : state.Within b' := by
  intro topic origin htopic horigin
  exact Nat.le_trans (h topic origin htopic horigin) (hle _)

/-! ## Sound sessions -/

namespace Session

variable {t t' : Session kind}

/-- Every record was within the heads when it was made, and no record of an
address is below an earlier one. -/
structure Sound (t : Session kind) : Prop where
  inv : kind.Inv t.store
  logged : ∀ event ∈ t.events, kind.Inv event.after ∧
    ∀ state, event.command.recorded = some state → state.Within (kind.logs event.after)
  within : ∀ state ∈ t.records, state.Within (kind.logs t.store)
  unnamed : ∀ state ∈ t.records, state.topic = none → state.lastSyncedHead = 0
  ordered : t.records.Pairwise fun later earlier => later.address = earlier.address →
    earlier.lastSyncedHead.toNat ≤ later.lastSyncedHead.toNat

structure Follows (t t' : Session kind) : Prop where
  records : t'.records = t.records
  heads : HeadsKept t.store t'.store

structure Recordable (t : Session kind) (state : PeerSyncState) : Prop where
  within : state.Within (kind.logs t.store)
  unnamed : state.topic = none → state.lastSyncedHead = 0
  ahead : ∀ earlier ∈ t.records, state.address = earlier.address →
    earlier.lastSyncedHead.toNat ≤ state.lastSyncedHead.toNat

theorem Follows.refl (ht : t.Sound) : t.Follows t := ⟨rfl, .refl ht.inv⟩

theorem Follows.trans {t₁ t₂ t₃ : Session kind} (h₁ : t₁.Follows t₂) (h₂ : t₂.Follows t₃) :
    t₁.Follows t₃ :=
  ⟨h₂.records.trans h₁.records, h₁.heads.trans h₂.heads⟩

theorem Recordable.follows {state : PeerSyncState} (h : t.Recordable state) (hf : t.Follows t') :
    t'.Recordable state where
  within := h.within.mono hf.heads.current
  unnamed := h.unnamed
  ahead := by
    rw [hf.records]
    exact h.ahead

theorem records_of_answer {c : Command} {answer : c.Answer} (h : PassAnswers t c answer t') :
    t'.records = c.recorded.toList ++ t.records := by
  obtain ⟨s, -, -, hevents⟩ := h
  unfold records
  rw [hevents, List.filterMap_cons]
  cases c.recorded with
  | none => rfl
  | some state => rfl

theorem fetches_of_answer {c : Command} {answer : c.Answer} (h : PassAnswers t c answer t') :
    t'.fetches = t.fetches + if c.isFetch = true then 1 else 0 := by
  obtain ⟨s, -, -, hevents⟩ := h
  unfold fetches
  rw [hevents, List.countP_cons]

theorem Sound.quiet {c : Command} {answer : c.Answer} (ht : t.Sound) (hc : c.recorded = none)
    (h : PassAnswers t c answer t') : t'.Sound ∧ t.Follows t' := by
  have hheads := headsKept_passAnswers ht.inv h
  have hrecords : t'.records = t.records := by
    rw [records_of_answer h, hc]
    rfl
  refine ⟨⟨hheads.inv, ?_, ?_, ?_, ?_⟩, hrecords, hheads⟩
  · obtain ⟨s, -, -, hevents⟩ := h
    rw [hevents]
    intro event hevent
    rcases List.mem_cons.mp hevent with rfl | hold
    · refine ⟨hheads.inv, fun state hstate => ?_⟩
      rw [hc] at hstate
      cases hstate
    · exact ht.logged event hold
  · rw [hrecords]
    intro state hstate
    exact (ht.within state hstate).mono hheads.current
  · rw [hrecords]
    exact ht.unnamed
  · rw [hrecords]
    exact ht.ordered

/-- Recording a state that is within the heads and ahead of what was recorded
keeps a session sound. -/
theorem Sound.record {state : PeerSyncState} {answer : Command.Answer _} (ht : t.Sound)
    (hstate : t.Recordable state)
    (h : PassAnswers t (.store (.recordPeerSyncState state)) answer t') :
    t'.Sound ∧ t'.records = state :: t.records ∧ HeadsKept t.store t'.store := by
  have hheads := headsKept_passAnswers ht.inv h
  have hrecords : t'.records = state :: t.records := records_of_answer h
  have hwithin : state.Within (kind.logs t'.store) := hstate.within.mono hheads.current
  refine ⟨⟨hheads.inv, ?_, ?_, ?_, ?_⟩, hrecords, hheads⟩
  · obtain ⟨s, -, -, hevents⟩ := h
    rw [hevents]
    intro event hevent
    rcases List.mem_cons.mp hevent with rfl | hold
    · refine ⟨hheads.inv, fun other hother => ?_⟩
      cases hother
      exact hwithin
    · exact ht.logged event hold
  · rw [hrecords]
    intro other hother
    rcases List.mem_cons.mp hother with rfl | hold
    · exact hwithin
    · exact (ht.within other hold).mono hheads.current
  · rw [hrecords]
    intro other hother
    rcases List.mem_cons.mp hother with rfl | hold
    · exact hstate.unnamed
    · exact ht.unnamed other hold
  · rw [hrecords]
    exact List.pairwise_cons.mpr ⟨hstate.ahead, ht.ordered⟩

/-! ## What the programs of a pass leave -/

def Yields {ε α : Type} (p : Server ε α) (Q : α → Session kind → Prop) (t : Session kind) : Prop :=
  Performs PassAnswers (fun _ _ => True) p
    (fun out t' => t'.Sound ∧ ∀ a, out = .ok a → Q a t') t

variable {ε α β : Type} {p : Server ε α} {Q : α → Session kind → Prop}

theorem Yields.bind {f : α → Server ε β} {Q' : β → Session kind → Prop} (hp : Yields p Q t)
    (hf : ∀ a t', t'.Sound → Q a t' → Yields (f a) Q' t') : Yields (p >>= f) Q' t := by
  apply Performs.bind hp
  · intro a t' h
    exact hf a t' h.1 (h.2 a rfl)
  · intro e t' h
    refine ⟨h.1, ?_⟩
    intro b hb
    cases hb

theorem Yields.imp {Q' : α → Session kind → Prop} (hp : Yields p Q t)
    (hQ : ∀ a t', Q a t' → Q' a t') : Yields p Q' t := by
  apply Performs.consequence hp
  intro out t' h
  exact ⟨h.1, fun a ha => hQ a t' (h.2 a ha)⟩

theorem Yields.attempt {ε' : Type} (hp : Yields p Q t) :
    Yields (p.attempt : Server ε' (Except ε α)) (fun r t' => ∀ a, r = .ok a → Q a t') t := by
  apply Performs.attempt
  apply Performs.consequence hp
  intro out t' h
  refine ⟨h.1, ?_⟩
  intro r hr
  cases hr
  exact h.2

theorem yields_ret {a : α} (ht : t.Sound) (hQ : Q a t) : Yields (.ret a : Server ε α) Q t := by
  refine ⟨ht, ?_⟩
  intro b hb
  cases hb
  exact hQ

theorem yields_fail {e : ε} (ht : t.Sound) : Yields (.fail e : Server ε α) Q t := by
  refine ⟨ht, ?_⟩
  intro b hb
  cases hb

theorem yields_quiet (ht : t.Sound) (hp : Calls (fun c => c.recorded = none) p) :
    Yields p (fun _ t' => t.Follows t') t := by
  have hfollows : ∀ {u}, t.Follows u → u.Sound → Yields p (fun _ t' => t.Follows t') u := by
    induction p with
    | ret a => exact fun hu hsound => yields_ret hsound hu
    | fail e => exact fun _ hsound => yields_fail hsound
    | call c next ih =>
        intro u hu hsound
        refine ⟨trivial, fun answer u' hanswer => ?_⟩
        obtain ⟨hsound', hfollows⟩ := hsound.quiet hp.1 hanswer
        exact ih answer (hp.2 answer) (hu.trans hfollows) hsound'
  exact hfollows (.refl ht) ht

/-! ### Records -/

theorem yields_nowMs (ht : t.Sound) : Yields (nowMs : Server ε UInt64) (fun _ t' => t.Follows t') t :=
  yields_quiet ht (calls_nowMs rfl)

theorem yields_recordState {state : PeerSyncState} (ht : t.Sound) (hstate : t.Recordable state) :
    Yields (callStoreText (.recordPeerSyncState state) >>= fun _ => pure ())
      (fun _ t' => t'.records = state :: t.records ∧ HeadsKept t.store t'.store) t := by
  have hcall : Yields (callStoreText (.recordPeerSyncState state))
      (fun _ t' => t'.records = state :: t.records ∧ HeadsKept t.store t'.store) t := by
    apply Performs.mapError
    refine ⟨trivial, fun answer t' hanswer => performs_ofExcept ?_⟩
    obtain ⟨ht', hrest⟩ := ht.record hstate hanswer
    exact ⟨ht', fun _ _ => hrest⟩
  apply hcall.bind
  intro u t' ht' h
  exact yields_ret ht' h

variable {peer : PeerSpec} {head : TopicHead} {localHead : UInt64}

/-- A head that may be recorded as synced: the store has it, and no more was
recorded before. -/
structure Reached (t : Session kind) (peer : PeerSpec) (head : TopicHead) (localHead : UInt64) :
    Prop where
  stored : localHead.toNat ≤ ((kind.logs t.store).current (LogKey.of head.topic head.origin)).toNat
  ahead : ∀ earlier ∈ t.records,
    earlier.address = ⟨peer.endpoint, some head.topic, some head.origin.key⟩ →
      earlier.lastSyncedHead.toNat ≤ localHead.toNat

theorem Reached.follows (h : t.Reached peer head localHead) (hf : t.Follows t') :
    t'.Reached peer head localHead where
  stored := Nat.le_trans h.stored (hf.heads.current _)
  ahead := by
    rw [hf.records]
    exact h.ahead

theorem Sound.reached (ht : t.Sound) (peer : PeerSpec) (head : TopicHead) :
    t.Reached peer head ((kind.logs t.store).current (LogKey.of head.topic head.origin)) where
  stored := Nat.le_refl _
  ahead := by
    intro earlier hearlier haddress
    have htopic : earlier.topic = some head.topic := congrArg PeerKey.topic haddress
    have hkey : earlier.origin.map NodeId.key = some head.origin.key :=
      congrArg PeerKey.origin haddress
    obtain ⟨origin, horigin, hsame⟩ := Option.map_eq_some_iff.mp hkey
    have hlog : LogKey.of head.topic origin = LogKey.of head.topic head.origin := by
      rw [LogKey.of, LogKey.of, hsame]
    rw [← hlog]
    exact ht.within earlier hearlier head.topic origin htopic horigin

theorem Reached.recordable (h : t.Reached peer head localHead) {state : PeerSyncState}
    (hpeer : state.peer = peer.endpoint) (htopic : state.topic = some head.topic)
    (horigin : state.origin = some head.origin) (hreached : state.lastSyncedHead = localHead) :
    t.Recordable state where
  within := by
    intro topic origin htopic' horigin'
    rw [htopic] at htopic'
    rw [horigin] at horigin'
    cases htopic'
    cases horigin'
    rw [hreached]
    exact h.stored
  unnamed := by
    intro hnone
    rw [htopic] at hnone
    cases hnone
  ahead := by
    intro earlier hearlier haddress
    rw [hreached]
    apply h.ahead earlier hearlier
    rw [← haddress, PeerSyncState.address, hpeer, htopic, horigin]
    rfl

theorem Reached.record (h : t.Reached peer head localHead) {state : PeerSyncState}
    (hreached : state.lastSyncedHead = localHead) (hrecords : t'.records = state :: t.records)
    (hheads : HeadsKept t.store t'.store) : t'.Reached peer head localHead where
  stored := Nat.le_trans h.stored (hheads.current _)
  ahead := by
    rw [hrecords]
    intro earlier hearlier haddress
    rcases List.mem_cons.mp hearlier with rfl | hold
    · rw [hreached]
    · exact h.ahead earlier hold haddress

theorem yields_recordPeerSyncSuccess (ht : t.Sound) (h : t.Reached peer head localHead)
    (remoteHead : UInt64) :
    Yields (recordPeerSyncSuccess peer (some head.topic) (some head.origin) localHead remoteHead
      localHead) (fun _ t' => t'.Reached peer head localHead) t := by
  apply (yields_nowMs ht).bind
  intro attemptAt t₁ ht₁ h₁
  apply (yields_nowMs ht₁).bind
  intro successAt t₂ ht₂ h₂
  have hreached := (h.follows h₁).follows h₂
  apply (yields_recordState ht₂ (hreached.recordable rfl rfl rfl rfl)).imp
  intro u t₃ h₃
  exact hreached.record rfl h₃.1 h₃.2

theorem yields_recordPeerSyncFailure (ht : t.Sound) (h : t.Reached peer head localHead)
    (remoteHead : UInt64) (error : String) :
    Yields (recordPeerSyncFailure peer (some head.topic) (some head.origin) localHead remoteHead
      error) (fun _ _ => True) t := by
  apply (yields_nowMs ht).bind
  intro attemptAt t₁ ht₁ h₁
  exact (yields_recordState ht₁ ((h.follows h₁).recordable rfl rfl rfl rfl)).imp
    fun _ _ _ => trivial

theorem Sound.recordable_unnamed (ht : t.Sound) {state : PeerSyncState} (htopic : state.topic = none)
    (hzero : state.lastSyncedHead = 0) : t.Recordable state where
  within := by
    intro topic origin htopic'
    rw [htopic] at htopic'
    cases htopic'
  unnamed := fun _ => hzero
  ahead := by
    intro earlier hearlier haddress
    have hnone : earlier.topic = none := (congrArg PeerKey.topic haddress).symm.trans htopic
    rw [ht.unnamed earlier hearlier hnone]
    exact Nat.zero_le _

/-! ### One head -/

theorem yields_putReplicatedMessage (ht : t.Sound) (m : StoredMessage) :
    Yields (callStoreText (.putReplicatedMessage m))
      (fun _ t' => t.Follows t' ∧
        m.headId.toNat ≤ ((kind.logs t'.store).current m.log).toNat) t := by
  apply Performs.mapError
  refine ⟨trivial, fun answer t' hanswer => performs_ofExcept ?_⟩
  obtain ⟨ht', hfollows⟩ := ht.quiet rfl hanswer
  refine ⟨ht', ?_⟩
  intro result hresult
  refine ⟨hfollows, ?_⟩
  obtain ⟨s, ⟨calls, -, rfl⟩, hstore, -⟩ := hanswer
  have hinv := (headsKept_runFrom ht.inv calls).inv
  rcases storeAnswers_cases hinv hstore with ⟨env, r, -, -, -, hstep⟩ | ⟨⟨e, rfl⟩, -⟩
  · exact Logs.headId_le_of_put (Backend.wellFormed hinv) hstep
  · cases hresult

theorem yields_syncMessage (ht : t.Sound) (m : StoredMessage) :
    Yields (syncMessage peer head m) (fun _ t' => t.Follows t' ∧
      m.headId.toNat ≤
        ((kind.logs t'.store).current (LogKey.of head.topic head.origin)).toNat) t := by
  by_cases hmatch : m.topic = head.topic ∧ m.origin = head.origin
  · rw [syncMessage_eq hmatch.1 hmatch.2]
    apply (yields_putReplicatedMessage ht m).bind
    intro result t₁ ht₁ h₁
    have hquiet : ApplyCalls fun c => c.recorded = none := ⟨fun _ => rfl, fun _ => rfl⟩
    apply (yields_quiet ht₁ (hquiet.afterPut m result)).imp
    intro u t₂ h₂
    refine ⟨h₁.1.trans h₂, ?_⟩
    rw [← hmatch.1, ← hmatch.2]
    exact Nat.le_trans h₁.2 (h₂.heads.current _)
  · rw [syncMessage, if_pos (not_and_or.mp hmatch)]
    exact yields_fail ht

theorem yields_receive (ht : t.Sound) (last : Option Status) {start : UInt64}
    (items : List Pb.FetchResponse) (localHead : { localHead : UInt64 // start ≤ localHead })
    (fetched : UInt32) (hstored : localHead.1.toNat ≤
      ((kind.logs t.store).current (LogKey.of head.topic head.origin)).toNat) :
    Yields (receive peer head last items localHead fetched) (fun result t' => t.Follows t' ∧
      result.1.1.toNat ≤
        ((kind.logs t'.store).current (LogKey.of head.topic head.origin)).toNat) t := by
  induction items generalizing t localHead fetched with
  | nil =>
      cases last with
      | none => exact yields_ret ht ⟨.refl ht, hstored⟩
      | some status => exact yields_fail ht
  | cons item rest ih =>
      unfold receive
      split
      · exact ih ht localHead fetched hstored
      · refine Yields.bind (yields_quiet ht (calls_ofExcept _)) ?_
        intro m t₁ ht₁ h₁
        apply (yields_syncMessage ht₁ m).bind
        intro u t₂ ht₂ h₂
        have hboth := h₁.trans h₂.1
        have hmax : (max localHead.1 m.headId).toNat ≤
            ((kind.logs t₂.store).current (LogKey.of head.topic head.origin)).toNat := by
          have hkept := hboth.heads.current (LogKey.of head.topic head.origin)
          have hput := h₂.2
          rw [UInt64.toNat_max]
          omega
        apply (ih ht₂ ⟨max localHead.1 m.headId, _⟩ (fetched.saturatingAdd 1) hmax).imp
        intro result t₃ h₃
        exact ⟨hboth.trans h₃.1, h₃.2⟩

/-- Every round records a head that is stored and ahead of the round before. -/
theorem yields_syncLoop (ht : t.Sound) (h : t.Reached peer head localHead) (batchLimit : UInt32) :
    Yields (syncLoop peer head batchLimit localHead)
      (fun result t' => t'.Reached peer head result) t := by
  induction hleft : 2 ^ 64 - localHead.toNat using Nat.strong_induction_on
    generalizing t localHead with
  | h left ih =>
      rw [syncLoop]
      split_ifs
      · refine ⟨trivial, fun answer t₁ hanswer => ?_⟩
        obtain ⟨ht₁, h₁⟩ := ht.quiet rfl hanswer
        refine Yields.bind (yields_quiet ht₁ (calls_ofExcept _)) ?_
        rintro ⟨items, last⟩ t₂ ht₂ h₂
        have hreached := (h.follows h₁).follows h₂
        apply (yields_receive ht₂ last items ⟨localHead, UInt64.le_refl _⟩ 0 hreached.stored).bind
        rintro ⟨reached, fetched⟩ t₃ ht₃ ⟨h₃, hstored⟩
        have hle : localHead.toNat ≤ reached.1.toNat := reached.2
        have hnext : t₃.Reached peer head reached.1 := by
          refine ⟨hstored, fun earlier hearlier haddress => ?_⟩
          exact Nat.le_trans ((hreached.follows h₃).ahead earlier hearlier haddress) hle
        apply (yields_recordPeerSyncSuccess ht₃ hnext _).bind
        intro u t₄ ht₄ h₄
        split_ifs with hstop
        · exact yields_ret ht₄ h₄
        · have hne : reached.1.toNat ≠ localHead.toNat :=
            fun heq => hstop (Or.inr (UInt64.toNat_inj.mp heq))
          have hlt := UInt64.toNat_lt reached.1
          exact ih _ (by omega) ht₄ h₄ rfl
      · exact yields_ret ht h

theorem yields_getHead (ht : t.Sound) (peer : PeerSpec) (head : TopicHead) :
    Yields (callStoreText (.getHead head.topic head.origin))
      (fun stored t' => t'.Reached peer head (Option.getD stored 0)) t := by
  apply Performs.mapError
  refine ⟨trivial, fun answer t' hanswer => performs_ofExcept ?_⟩
  obtain ⟨ht', -⟩ := ht.quiet rfl hanswer
  refine ⟨ht', ?_⟩
  rintro stored hresult
  obtain ⟨s, ⟨calls, -, rfl⟩, hstore, -⟩ := hanswer
  have hinv := (headsKept_runFrom ht.inv calls).inv
  rcases storeAnswers_cases hinv hstore with ⟨env, r, -, hr, -, hstep⟩ | ⟨⟨e, rfl⟩, -⟩
  · subst hr
    cases hresult
    obtain ⟨hhead, hlogs⟩ := hstep
    have hcurrent : Option.getD stored 0 =
        (kind.logs t'.store).current (LogKey.of head.topic head.origin) := by
      rw [show kind.logs t'.store = _ from hlogs, hhead]
      rfl
    rw [hcurrent]
    exact ht'.reached peer head
  · cases hresult

theorem yields_syncHead (ht : t.Sound) (peer : PeerSpec) (head : TopicHead) (batchLimit : UInt32) :
    Yields (syncHead peer head batchLimit) (fun _ _ => True) t := by
  apply (yields_getHead ht peer head).bind
  intro stored t₁ ht₁ h₁
  apply (yields_syncLoop ht₁ h₁ batchLimit).bind
  intro localHead t₂ ht₂ h₂
  split_ifs
  · exact (yields_recordPeerSyncSuccess ht₂ h₂ _).imp fun _ _ _ => trivial
  · exact yields_ret ht₂ trivial

/-! ### A pass -/

theorem yields_syncHeads (ht : t.Sound) (peer : PeerSpec) (batchLimit : UInt32)
    (heads : List Pb.TopicHead) :
    Yields (syncHeads peer batchLimit heads) (fun _ _ => True) t := by
  induction heads generalizing t with
  | nil => exact yields_ret ht trivial
  | cons listed rest ih =>
      cases hhead : coreTopicHead listed with
      | error status =>
          rw [syncHeads, hhead]
          exact yields_fail ht
      | ok head =>
          rw [syncHeads_cons hhead]
          apply (yields_syncHead ht peer head batchLimit).attempt.bind
          rintro (err | u) t₁ ht₁ -
          · apply (yields_getHead ht₁ peer head).bind
            intro stored t₂ ht₂ h₂
            apply (yields_recordPeerSyncFailure ht₂ h₂ _ _).bind
            intro u t₃ ht₃ _
            exact yields_fail ht₃
          · exact ih ht₁

theorem yields_syncPeer (ht : t.Sound) (localNode : NodeId) (peer : PeerSpec)
    (batchLimit : UInt32) : Yields (syncPeer localNode peer batchLimit) (fun _ _ => True) t := by
  have hconnect : Calls (fun c => c.recorded = none) (connectPeer peer) :=
    ⟨rfl, fun answer => calls_ofExcept answer⟩
  apply (yields_quiet ht hconnect).bind
  intro u t₁ ht₁ _
  have hverify : Calls (fun c => c.recorded = none) (verifyPeerIdentity localNode peer) :=
    calls_verifyPeerIdentity (A := fun c => c.recorded = none) rfl localNode
  apply (yields_quiet ht₁ hverify).bind
  intro u t₂ ht₂ _
  have hlist : Calls (fun c => c.recorded = none) (callListHeads peer) :=
    ⟨rfl, fun answer => calls_ofExcept _⟩
  apply (yields_quiet ht₂ hlist).bind
  intro heads t₃ ht₃ _
  apply (yields_syncHeads ht₃ peer batchLimit heads).bind
  intro u t₄ ht₄ _
  apply (yields_nowMs ht₄).bind
  intro attemptAt t₅ ht₅ _
  apply (yields_nowMs ht₅).bind
  intro successAt t₆ ht₆ _
  exact (yields_recordState ht₆ (ht₆.recordable_unnamed rfl rfl)).imp fun _ _ _ => trivial

theorem yields_syncPeers (ht : t.Sound) (config : PeerSyncConfig) (peers : List PeerSpec)
    (firstError : Option String) :
    Yields (syncPeers config peers firstError) (fun _ _ => True) t := by
  induction peers generalizing t firstError with
  | nil =>
      cases firstError with
      | none => exact yields_ret ht trivial
      | some error => exact yields_fail ht
  | cons peer rest ih =>
      apply (yields_syncPeer ht config.localNode peer config.batchLimit).attempt.bind
      rintro (error | u) t₁ ht₁ -
      · have hrecord : Yields (recordPeerSyncFailure peer none none 0 0 error) (fun _ _ => True)
            t₁ := by
          apply (yields_nowMs ht₁).bind
          intro attemptAt t₂ ht₂ _
          exact (yields_recordState ht₂ (ht₂.recordable_unnamed rfl rfl)).imp fun _ _ _ => trivial
        apply hrecord.attempt.bind
        intro outcome t₂ ht₂ _
        exact ih ht₂ _
      · exact ih ht₁ firstError

theorem sound_start {s : kind.Store} (hs : kind.Inv s) : (⟨s, []⟩ : Session kind).Sound where
  inv := hs
  logged := fun _ hevent => absurd hevent List.not_mem_nil
  within := fun _ hstate => absurd hstate List.not_mem_nil
  unnamed := fun _ hstate => absurd hstate List.not_mem_nil
  ordered := .nil

theorem Sound.passes (ht : t.Sound) (h : Passes t t') : t'.Sound := by
  induction h with
  | none => exact ht
  | pass _ hruns ih => exact (Performs.of_runs (yields_syncPeers ih _ _ none) hruns).1

end Session

/-! ## How often a head is fetched from -/

omit [Formats] in
theorem messageCalls_isFetch (head : TopicHead) :
    MessageCalls (fun c => c.isFetch = false) head :=
  ⟨⟨fun _ => rfl, fun _ => rfl⟩, fun _ _ _ => rfl⟩

omit [Formats] in
theorem calls_success_isFetch (peer : PeerSpec) (topic : Option Topic) (origin : Option NodeId)
    (localHead remoteHead lastSyncedHead : UInt64) :
    Calls (fun c => c.isFetch = false)
      (recordPeerSyncSuccess peer topic origin localHead remoteHead lastSyncedHead) :=
  calls_recordPeerSyncSuccess (A := fun c => c.isFetch = false) rfl (fun _ _ _ _ => rfl) _ _ _

/-- Every round but the last advances the local head. -/
theorem atMost_syncLoop (peer : PeerSpec) (head : TopicHead) (batchLimit : UInt32)
    (localHead : UInt64) : AtMost Command.isFetch (syncLoop peer head batchLimit localHead)
      (head.headId.toNat - localHead.toNat) := by
  induction hleft : 2 ^ 64 - localHead.toNat using Nat.strong_induction_on generalizing localHead with
  | h left ih =>
      rw [syncLoop]
      split_ifs with hbehind
      · have hlt := UInt64.lt_iff_toNat_lt.mp hbehind
        refine ⟨fun _ => Nat.sub_pos_of_lt hlt, fun answer => ?_⟩
        rw [if_pos (show Command.isFetch (.fetch _ _) = true from rfl)]
        apply Calls.atMost_bind (calls_ofExcept _)
        rintro ⟨items, last⟩
        apply Calls.atMost_bind (calls_receive (messageCalls_isFetch head) last items _ 0)
        rintro ⟨reached, fetched⟩
        apply Calls.atMost_bind (calls_success_isFetch _ _ _ _ _ _)
        intro u
        split_ifs with hstop
        · exact trivial
        · have hle : localHead.toNat ≤ reached.1.toNat := reached.2
          have hne : reached.1.toNat ≠ localHead.toNat :=
            fun heq => hstop (Or.inr (UInt64.toNat_inj.mp heq))
          have hmax := UInt64.toNat_lt reached.1
          exact (ih _ (by omega) reached.1 rfl).mono (by omega)
      · exact trivial

/-- The fetches that `sync_head` may make once its store has reported the local
head: one for each position it is behind, and one more. -/
def fetchBound (head : TopicHead) : Except MsgbusError (Option HeadId) → Nat
  | .ok stored => head.headId.toNat - (stored.getD 0).toNat + 1
  | .error _ => 0

theorem atMost_syncHead (peer : PeerSpec) (head : TopicHead) (batchLimit : UInt32)
    (localHead : UInt64) :
    AtMost Command.isFetch
      (syncLoop peer head batchLimit localHead >>= fun localHead =>
        if head.headId ≤ localHead then
          recordPeerSyncSuccess peer (some head.topic) (some head.origin) localHead head.headId
            localHead
        else pure ())
      (head.headId.toNat - localHead.toNat + 1) := by
  apply (atMost_syncLoop peer head batchLimit _).bind
  intro localHead
  split_ifs
  · exact (calls_success_isFetch _ _ _ _ _ _).atMost 1
  · exact trivial

theorem Session.events_of_runs {ε α : Type} {p : Server ε α} {out : Except ε α}
    {t t' : Session kind} (h : Runs PassAnswers t p out t') :
    ∃ since, t'.events = since ++ t.events := by
  induction h with
  | ret => exact ⟨[], rfl⟩
  | fail => exact ⟨[], rfl⟩
  | call hanswer _ ih =>
      obtain ⟨since, hsince⟩ := ih
      obtain ⟨-, -, -, hevents⟩ := hanswer
      exact ⟨since ++ [_], by rw [hsince, hevents, List.append_assoc]; rfl⟩

theorem fetches_syncHead {t t' : Session kind} {peer : PeerSpec} {head : TopicHead}
    {batchLimit : UInt32} {out : Except String Unit}
    (h : Runs PassAnswers t (syncHead peer head batchLimit) out t') :
    ∃ answer s since, t'.events =
        since ++ ⟨.store (.getHead head.topic head.origin), answer, s⟩ :: t.events ∧
      since.countP (·.command.isFetch) ≤ fetchBound head answer := by
  cases h with
  | @call _ t₁ _ _ _ answer _ hanswer hrest =>
      obtain ⟨since, hsince⟩ := Session.events_of_runs hrest
      obtain ⟨-, -, -, hevents⟩ := hanswer
      refine ⟨answer, t₁.store, since, hsince.trans (congrArg (since ++ ·) hevents), ?_⟩
      have hcount : t'.fetches ≤ t₁.fetches + fetchBound head answer := by
        cases answer with
        | error e =>
            cases hrest
            exact Nat.le_refl _
        | ok stored =>
            exact (atMost_syncHead peer head batchLimit _).of_runs Session.fetches hrest
              fun _ _ _ _ => Session.fetches_of_answer
      unfold Session.fetches at hcount
      rw [hsince, List.countP_append] at hcount
      omega

theorem exists_passAnswers (t : Session kind) (c : Command) :
    ∃ answer t', PassAnswers t c answer t' := by
  have hanswered : ∃ answer s', Answered t.store c answer s' := by
    cases c with
    | store op => exact ⟨_, _, Or.inl ⟨⟨0, 0, ⟨"m"⟩⟩, by decide, rfl, rfl⟩⟩
    | nowMs => exact ⟨(0 : UInt64), t.store, rfl⟩
    | newMessageId => exact ⟨(⟨"m"⟩ : MessageId), t.store, rfl⟩
    | send m => exact ⟨(), t.store, rfl⟩
    | connect endpoint => exact ⟨Except.error "", t.store, rfl⟩
    | health endpoint => exact ⟨Except.error (.unavailable ""), t.store, rfl⟩
    | listHeads endpoint => exact ⟨Except.error (.unavailable ""), t.store, rfl⟩
    | fetch endpoint request => exact ⟨Except.error (.unavailable ""), t.store, rfl⟩
  obtain ⟨answer, s', h⟩ := hanswered
  exact ⟨answer, t.add c answer s', passAnswers_add h⟩

/-- In every sequence of passes, whatever peers return, whichever calls fail and
whatever is published meanwhile: a recorded head is at most the head that the
store reports after the record, all messages up to it are stored, and it is not
below what was recorded at its address before.  `sync_head` always returns, and
after the head it has read makes at most one fetch more than the positions that
one is behind. -/
theorem sync_records_sound {s : kind.Store} (hs : kind.Inv s) {t : Session kind}
    (h : Passes ⟨s, []⟩ t) :
    (∀ event ∈ t.events, ∀ state, event.command.recorded = some state →
      ∀ topic origin, state.topic = some topic → state.origin = some origin →
        ∃ stored, MsgbusStore.getHead event.after topic origin = .ok stored ∧
          state.lastSyncedHead.toNat ≤ (stored.getD 0).toNat ∧
          ∀ n : HeadId, 1 ≤ n.toNat → n.toNat ≤ state.lastSyncedHead.toNat →
            ((kind.logs event.after).message (LogKey.of topic origin) n).isSome) ∧
    (t.records.Pairwise fun later earlier => later.address = earlier.address →
      earlier.lastSyncedHead.toNat ≤ later.lastSyncedHead.toNat) ∧
    ∀ (u : Session kind) peer head batchLimit,
      (∃ out u', Runs PassAnswers u (syncHead peer head batchLimit) out u') ∧
      ∀ out u', Runs PassAnswers u (syncHead peer head batchLimit) out u' →
        ∃ answer s since, u'.events =
            since ++ ⟨.store (.getHead head.topic head.origin), answer, s⟩ :: u.events ∧
          since.countP (·.command.isFetch) ≤ fetchBound head answer := by
  have ht := (Session.sound_start hs).passes h
  refine ⟨?_, ht.ordered, ?_⟩
  · intro event hevent state hstate topic origin htopic horigin
    obtain ⟨hinv, hwithin⟩ := ht.logged event hevent
    have hle := hwithin state hstate topic origin htopic horigin
    refine ⟨_, Backend.getHead_eq topic origin hinv, hle, ?_⟩
    intro n hpos hn
    exact ((Backend.wellFormed hinv).contiguous _ n).mpr ⟨hpos, Nat.le_trans hn hle⟩
  · intro u peer head batchLimit
    constructor
    · exact (performs_trivial (syncHead peer head batchLimit) u).exists_runs trivial
        (fun u c (_ : True) _ => exists_passAnswers u c) fun _ _ _ _ _ _ => trivial
    · intro out u' hruns
      exact fetches_syncHead hruns

/-! ## A pass that takes two messages -/

section Taking

variable {t : Session kind} {peer : PeerSpec}

variable (peer) in
theorem exists_recorded_success (ht : Reachable t.store) (topic : Option Topic)
    (origin : Option NodeId) (localHead remoteHead : UInt64) :
    ∃ t', Runs PassAnswers t
        (recordPeerSyncSuccess peer topic origin localHead remoteHead localHead) (.ok ()) t' ∧
      Reachable t'.store ∧ kind.logs t'.store = kind.logs t.store ∧ t'.fetches = t.fetches ∧
      t'.records =
        ⟨peer.endpoint, topic, origin, localHead, remoteHead, localHead, 0, 0, 0, none⟩ ::
          t.records := by
  let t₁ := t.add .nowMs (0 : UInt64) t.store
  let t₂ := t₁.add .nowMs (0 : UInt64) t.store
  let state : PeerSyncState :=
    ⟨peer.endpoint, topic, origin, localHead, remoteHead, localHead, 0, 0, 0, none⟩
  obtain ⟨s', hrecord, hs', hlogs⟩ := exists_recordPeerSyncState ht state
  have hnow : Runs PassAnswers t (nowMs : Server String UInt64) (.ok 0) t₁ :=
    .call (passAnswers_add rfl) (.ret _ _)
  have hnow' : Runs PassAnswers t₁ (nowMs : Server String UInt64) (.ok 0) t₂ :=
    .call (passAnswers_add rfl) (.ret _ _)
  let t₃ := t₂.add (.store (.recordPeerSyncState state)) (Except.ok ()) s'
  have hstate : PassAnswers t₂ (.store (.recordPeerSyncState state)) (Except.ok ()) t₃ :=
    passAnswers_add hrecord
  exact ⟨t₃, hnow.bind (hnow'.bind ((runs_callStoreText hstate).bind (.ret _ _))), hs', hlogs, rfl,
    rfl⟩

def taken (n : HeadId) : StoredMessage :=
  ⟨⟨"m"⟩, ⟨"t"⟩, ⟨"x", "y", "z"⟩, n, .empty, .empty, 0, false⟩

variable (peer) in
theorem exists_round (head : TopicHead) {t : Session .redb} (ht : Reachable t.store)
    (htopic : head.topic = ⟨"t"⟩) (horigin : head.origin = ⟨"x", "y", "z"⟩) {last next : HeadId}
    (hlast : (StorageKind.redb.logs t.store).current (taken 1).log = last)
    (hnext : last.toNat + 1 = next.toNat) (hbehind : last < head.headId) :
    ∃ t', (∀ out t'', Runs PassAnswers t' (syncLoop peer head 1 next) out t'' →
        Runs PassAnswers t (syncLoop peer head 1 last) out t'') ∧
      Reachable t'.store ∧ (StorageKind.redb.logs t'.store).current (taken 1).log = next ∧
      t'.fetches = t.fetches + 1 ∧ t'.records =
        ⟨peer.endpoint, some head.topic, some head.origin, next, head.headId, next, 0, 0, 0,
          none⟩ :: t.records := by
  let request := fetchRequest head last 1
  let items : Except Status (List Pb.FetchResponse × Option Status) :=
    .ok ([⟨some (protoMessage (taken next))⟩], none)
  let t₁ := t.add (.fetch peer.endpoint request) items t.store
  have hfetch : PassAnswers t (.fetch peer.endpoint request) items t₁ := passAnswers_add rfl
  have hpositive : next ≠ 0 := by
    rintro rfl
    cases hnext
  have hmessage : coreMessage (protoMessage (taken next)) = .ok (taken next) :=
    coreMessage_protoMessage (Or.inl (show NodeId.Valid ⟨"x", "y", "z"⟩ by decide)) hpositive
      (show ValidPart "m" by decide) (show ValidPart "t" by decide)
  have hcurrent : ((StorageKind.redb.logs t.store).current (taken next).log).toNat + 1 =
      (taken next).headId.toNat := by
    change ((StorageKind.redb.logs t.store).current (taken 1).log).toNat + 1 = next.toNat
    rw [hlast, hnext]
  obtain ⟨s', hput, hs', hlogs⟩ := @exists_put_next _ .redb _ ht ⟨0, 0, ⟨"m"⟩⟩
    (by decide) _ hcurrent trivial
  let t₂ := t₁.add (.store (.putReplicatedMessage (taken next)))
    (Except.ok ReplicateResult.inserted) s'
  let t₃ := t₂.add (.send (taken next)) () s'
  have hput : PassAnswers t₁ (.store (.putReplicatedMessage (taken next)))
      (Except.ok ReplicateResult.inserted) t₂ := passAnswers_add hput
  have hsend : PassAnswers t₂ (.send (taken next)) () t₃ := passAnswers_add rfl
  have hreceived : Runs PassAnswers t₁ (syncMessage peer head (taken next)) (.ok ()) t₃ :=
    runs_syncMessage htopic.symm horigin.symm rfl hput hsend
  obtain ⟨t₄, hround, ht₄, hlogs₄, hfetches, hrecords⟩ := exists_recorded_success peer
    (show Reachable t₃.store from hs') (some head.topic) (some head.origin) next head.headId
  have hlater : last.toNat < (taken next).headId.toNat := by
    change last.toNat < next.toNat
    omega
  refine ⟨t₄, ?_, ht₄, ?_, ?_, hrecords⟩
  · intro out t'' hrest
    exact runs_syncLoop_one hbehind hfetch hmessage hlater hreceived hround hrest
  · rw [hlogs₄]
    change (StorageKind.redb.logs s').current (taken 1).log = next
    rw [hlogs]
    change ((StorageKind.redb.logs t.store).write (taken 1).log next _).current (taken 1).log = next
    rw [Logs.write_current_self, hlast, ← UInt64.toNat_inj, UInt64.toNat_max]
    omega
  · rw [hfetches]
    exact Session.fetches_of_answer hfetch

def takenState (n : HeadId) : PeerSyncState :=
  ⟨"peer", some ⟨"t"⟩, some ⟨"x", "y", "z"⟩, n, 2, n, 0, 0, 0, none⟩

theorem exists_head_taken {t : Session .redb} (ht : Reachable t.store)
    (hempty : (StorageKind.redb.logs t.store).head (taken 1).log = none) :
    ∃ t', Runs PassAnswers t (syncHead ⟨"peer", none⟩ ⟨⟨"t"⟩, ⟨"x", "y", "z"⟩, 2⟩ 1) (.ok ()) t' ∧
      Reachable t'.store ∧ t'.fetches = t.fetches + 2 ∧
      t'.records = takenState 2 :: takenState 2 :: takenState 1 :: t.records := by
  let stored : Except MsgbusError (Option HeadId) := .ok none
  let t₁ := t.add (.store (.getHead ⟨"t"⟩ ⟨"x", "y", "z"⟩)) stored t.store
  have hgetHead : PassAnswers t (.store (.getHead ⟨"t"⟩ ⟨"x", "y", "z"⟩)) stored t₁ := by
    have hanswer := storeAnswers_getHead ht ⟨"t"⟩ ⟨"x", "y", "z"⟩
    rw [show LogKey.of ⟨"t"⟩ ⟨"x", "y", "z"⟩ = (taken 1).log from rfl, hempty] at hanswer
    exact passAnswers_add hanswer
  have hcurrent : (StorageKind.redb.logs t₁.store).current (taken 1).log = 0 :=
    congrArg (Option.getD · 0) hempty
  obtain ⟨t₂, hfirst, ht₂, hone, hfetches₂, hrecords₂⟩ := exists_round ⟨"peer", none⟩
    ⟨⟨"t"⟩, ⟨"x", "y", "z"⟩, 2⟩ (show Reachable t₁.store from ht) rfl rfl hcurrent
    (show (0 : UInt64).toNat + 1 = (1 : UInt64).toNat by decide) (show (0 : UInt64) < 2 by decide)
  obtain ⟨t₃, hsecond, ht₃, -, hfetches₃, hrecords₃⟩ := exists_round ⟨"peer", none⟩
    ⟨⟨"t"⟩, ⟨"x", "y", "z"⟩, 2⟩ ht₂ rfl rfl hone
    (show (1 : UInt64).toNat + 1 = (2 : UInt64).toNat by decide) (show (1 : UInt64) < 2 by decide)
  obtain ⟨t₄, hdone, ht₄, -, hfetches₄, hrecords₄⟩ := exists_recorded_success
    ⟨"peer", none⟩ ht₃ (some ⟨"t"⟩) (some ⟨"x", "y", "z"⟩) 2 2
  have hstop : syncLoop ⟨"peer", none⟩ ⟨⟨"t"⟩, ⟨"x", "y", "z"⟩, 2⟩ 1 2 = .ret 2 := by
    rw [syncLoop, if_neg (by decide)]
  have hend : Runs PassAnswers t₃ (syncLoop ⟨"peer", none⟩ ⟨⟨"t"⟩, ⟨"x", "y", "z"⟩, 2⟩ 1 2) (.ok 2)
      t₃ := by
    rw [hstop]
    exact .ret _ _
  have hloop := hfirst _ _ (hsecond _ _ hend)
  refine ⟨t₄, (runs_callStoreText hgetHead).bind (hloop.bind ?_), ht₄, ?_, ?_⟩
  · rw [if_pos (by decide)]
    exact hdone
  · rw [hfetches₄, hfetches₃, hfetches₂]
    rfl
  · rw [hrecords₄, hrecords₃, hrecords₂]
    rfl

theorem exists_pass_taken :
    ∃ t : Session .redb, Runs PassAnswers ⟨Redb.openEmpty, []⟩
        (syncOnce ⟨⟨"a", "b", "c"⟩, [⟨"peer", none⟩], 1⟩) (.ok ()) t ∧
      t.fetches = 2 ∧ t.records = [⟨"peer", none, none, 0, 0, 0, 0, 0, 0, none⟩, takenState 2,
        takenState 2, takenState 1] := by
  let t₀ : Session .redb := ⟨Redb.openEmpty, []⟩
  let t₁ := t₀.add (.connect "peer") (Except.ok ()) t₀.store
  let node : Except Status Pb.HealthResponse := .ok (health ⟨"x", "y", "z"⟩)
  let t₂ := t₁.add (.health "peer") node t₀.store
  let head : TopicHead := ⟨⟨"t"⟩, ⟨"x", "y", "z"⟩, 2⟩
  let heads : Except Status (List Pb.TopicHead) := .ok [protoTopicHead head]
  let t₃ := t₂.add (.listHeads "peer") heads t₀.store
  have hconnect : PassAnswers t₀ (.connect "peer") (Except.ok ()) t₁ := passAnswers_add rfl
  have hhealth : PassAnswers t₁ (.health "peer") node t₂ := passAnswers_add rfl
  have hlist : PassAnswers t₂ (.listHeads "peer") heads t₃ := passAnswers_add rfl
  obtain ⟨t₄, hhead, ht₄, hfetches₄, hrecords₄⟩ := exists_head_taken (t := t₃) .empty rfl
  obtain ⟨t₅, hdone, -, -, hfetches₅, hrecords₅⟩ := exists_recorded_success
    ⟨"peer", none⟩ ht₄ none none 0 0
  have hheads : Runs PassAnswers t₃ (syncHeads ⟨"peer", none⟩ 1 [protoTopicHead head]) (.ok ())
      t₄ := by
    rw [syncHeads_cons (coreTopicHead_protoTopicHead (Or.inl (by decide)) (by decide))]
    exact hhead.attempt.bind (.ret _ _)
  have hpeer : Runs PassAnswers t₀ (syncPeer ⟨"a", "b", "c"⟩ ⟨"peer", none⟩ 1) (.ok ()) t₅ :=
    (runs_connectPeer hconnect).bind
      ((runs_verifyPeerIdentity (by decide) (by decide) rfl hhealth).bind
        ((runs_callListHeads hlist).bind (hheads.bind hdone)))
  refine ⟨t₅, hpeer.attempt.bind (.ret _ _), ?_, ?_⟩
  · rw [hfetches₅, hfetches₄]
    rfl
  · rw [hrecords₅, hrecords₄]
    rfl

omit [Formats] in
/-- A pass that takes both messages of a log in two fetches: each record of the log
is backed by the store, and the later ones are not below the earlier. -/
theorem sync_records_sound_taken :
    letI := Serde.formats
    ∃ t : Session .redb, Passes ⟨Redb.openEmpty, []⟩ t ∧ t.fetches = 2 ∧
      t.records = [⟨"peer", none, none, 0, 0, 0, 0, 0, 0, none⟩, takenState 2, takenState 2,
        takenState 1] ∧
      (∀ event ∈ t.events, event.command.recorded = some (takenState 2) →
        ∃ stored, MsgbusStore.getHead event.after ⟨"t"⟩ ⟨"x", "y", "z"⟩ = .ok stored ∧
          2 ≤ (stored.getD 0).toNat) ∧
      (t.records.Pairwise fun later earlier => later.address = earlier.address →
        earlier.lastSyncedHead.toNat ≤ later.lastSyncedHead.toNat) ∧
      ∃ u : Session .redb, Runs PassAnswers ⟨Redb.openEmpty, []⟩
          (syncHead ⟨"peer", none⟩ ⟨⟨"t"⟩, ⟨"x", "y", "z"⟩, 2⟩ 1) (.ok ()) u ∧ u.fetches = 2 ∧
        ∃ answer s since,
          u.events = since ++ [⟨.store (.getHead ⟨"t"⟩ ⟨"x", "y", "z"⟩), answer, s⟩] ∧
          since.countP (·.command.isFetch) ≤ fetchBound ⟨⟨"t"⟩, ⟨"x", "y", "z"⟩, 2⟩ answer := by
  let := Serde.formats
  obtain ⟨t, hpass, hfetches, hrecords⟩ := exists_pass_taken
  have hpasses : Passes ⟨Redb.openEmpty, []⟩ t := (Passes.none _).pass hpass
  obtain ⟨hbacked, hordered, hbound⟩ := sync_records_sound Backend.inv_empty hpasses
  obtain ⟨u, hhead, -, htwo, -⟩ :=
    exists_head_taken (t := ⟨Redb.openEmpty, []⟩) .empty rfl
  refine ⟨t, hpasses, hfetches, hrecords, ?_, hordered, u, hhead, htwo, ?_⟩
  · intro event hevent hstate
    obtain ⟨stored, hstored, hle, -⟩ := hbacked event hevent _ hstate _ _ rfl rfl
    exact ⟨stored, hstored, hle⟩
  · exact (hbound _ _ _ _).2 _ _ hhead

end Taking

end Msgbus

import Msgbus.Network.Relays
import Msgbus.Server.Loop

/-!
# What passes report

A pass records its success with a peer only after it has brought everything that
the peer held when the pass began, whatever became of its other peers; and a peer
it has not brought up to date has its failure recorded.
-/

namespace Msgbus

open Program Contract System

variable [Formats]

def Command.ReportsSuccess (endpoint : String) : Command → Prop
  | .store (.recordPeerSyncState state) =>
      state.peer = endpoint ∧ state.topic = none ∧ state.lastError = none
  | _ => False

def Command.ReportsFailure (endpoint : String) : Command → Prop
  | .store (.recordPeerSyncState state) =>
      state.peer = endpoint ∧ state.topic = none ∧ state.lastError.isSome
  | _ => False

def Command.ReportsNothing (c : Command) : Prop := ∀ endpoint, ¬ c.ReportsSuccess endpoint

theorem calls_visitPeer (localNode : NodeId) (peer : PeerSpec) (batchLimit : UInt32) :
    Calls Command.ReportsNothing (visitPeer localNode peer batchLimit) := by
  have hconnect : Calls Command.ReportsNothing (connectPeer peer) :=
    ⟨fun _ h => h, fun _ => calls_ofExcept _⟩
  have hlist : Calls Command.ReportsNothing (callListHeads peer) :=
    ⟨fun _ h => h, fun _ => calls_ofExcept _⟩
  refine hconnect.bind fun _ => ?_
  refine (calls_verifyPeerIdentity (fun _ h => h) localNode).bind fun _ => ?_
  refine hlist.bind fun heads => ?_
  refine calls_syncHeads batchLimit fun _ _ head _ => takes_of_calls ?_ ?_
  · exact ⟨⟨fun _ _ h => h, fun _ _ h => h⟩, fun _ _ _ _ h => h⟩
  rintro c (_ | ⟨state, htopic⟩ | _ | _) endpoint hreports
  · exact hreports
  · rw [hreports.2.1] at htopic
    cases htopic
  · exact hreports
  · exact hreports

namespace Network

variable {ι : Type} {N : Network ι} {i j : ι}

/-! ## Successes -/

/-- What is recorded as a success is one: daemon `i` holds what the peer held at
`w₀`. -/
def Truthful (N : Network ι) (w₀ : ι → Logs) (i : ι) (w : ι → Logs) (c : Command) : Prop :=
  ∀ endpoint j, c.ReportsSuccess endpoint → N.resolve endpoint = some j →
    ∀ k, ((w₀ j).current k).toNat ≤ ((w i).current k).toNat

def reporting (N : Network ι) (w₀ : ι → Logs) : Contract ι (ι → Logs) Command Command.Answer :=
  N.relying.also (N.Truthful w₀)

variable {w₀ w : ι → Logs}

omit [Formats] in
theorem reporting_of_calls {ε α : Type} {p : Server ε α} {Q : α → (ι → Logs) → Prop}
    (h : N.relying.Gives i p Q w) (hp : Calls Command.ReportsNothing p) :
    (N.reporting w₀).Gives i p Q w :=
  Meets.also h hp fun _ _ hc endpoint _ hreports => absurd hreports (hc endpoint)

theorem reporting_syncPeer (hw : Grown w₀ w) (localNode : NodeId) (peer : PeerSpec)
    (batchLimit : UInt32) : (N.reporting w₀).Keeps i (syncPeer localNode peer batchLimit) w := by
  rw [syncPeer_eq]
  refine keeps_bind_of (P := fun _ w' => ∀ j, N.resolve peer.endpoint = some j →
    ∀ k, ((w j).current k).toNat ≤ ((w' i).current k).toNat)
    (reporting_of_calls (gives_visitPeer_resolved localNode peer batchLimit)
      (calls_visitPeer localNode peer batchLimit)).and_later ?_
  intro _ w₁ _ hheld
  refine keeps_of_calls_later (A := fun c => ∀ endpoint, c.ReportsSuccess endpoint →
    endpoint = peer.endpoint) (calls_recordPeerSyncSuccess (fun _ h => h.elim) ?_ _ _ _) ?_
  · intro state hpeer _ _ endpoint hreports
    exact hreports.1.symm.trans hpeer
  · intro w₂ c _ hw₂ hc
    refine ⟨trivial, ?_⟩
    intro endpoint j hreports hresolve k
    rw [hc endpoint hreports] at hresolve
    exact ((hw j).head k).trans ((hheld j hresolve k).trans ((hw₂ i).head k))

theorem reporting_syncPeers (hw : Grown w₀ w) (config : PeerSyncConfig) (peers : List PeerSpec)
    (firstError : Option String) :
    (N.reporting w₀).Keeps i (syncPeers config peers firstError) w := by
  induction peers generalizing w firstError with
  | nil =>
      cases firstError with
      | none => exact keeps_ret _
      | some error => exact keeps_fail _
  | cons peer rest ih =>
      unfold syncPeers
      refine keeps_bind (keeps_attempt (reporting_syncPeer hw _ peer _)) ?_
      rintro (error | u) w₁ hw₁
      · have hfailure : Calls Command.ReportsNothing
            (recordPeerSyncFailure peer none none 0 0 error) := by
          refine calls_recordPeerSyncFailure (fun _ h => h) ?_ 0 0
          intro state _ herror endpoint hreports
          rw [hreports.2.2] at herror
          cases herror
        refine keeps_bind (keeps_attempt (keeps_of_calls hfailure ?_)) fun _ w₂ hw₂ => ?_
        · exact fun _ _ _ hc => ⟨trivial, fun endpoint _ hreports => absurd hreports (hc endpoint)⟩
        · exact ih (hw.trans (Grown.trans hw₁ hw₂)) _
      · exact ih (hw.trans hw₁) firstError

section Run

variable [DecidableEq ι]
variable {a b : State ι N.Stores Command Command.Answer} {config : PeerSyncConfig}

/-- Whenever a pass is about to record its success with a peer, its daemon holds
every log as far as the peer did when the pass began, whatever became of the
other peers of the pass and whatever else runs. -/
theorem success_reports_truthful (hdistinct : N.Distinct)
    (hrun : (N.system.restrict N.BelowLimit).Reaches (.init N.fresh) a)
    (hlocal : config.localNode = N.node i)
    (hpass : (N.system.restrict N.BelowLimit).Reaches
      ⟨a.shared, a.tasks ++ [(i, (syncOnce config).discard)]⟩ b)
    {p : Server Unit Unit} (htask : b.tasks[a.tasks.length]? = some (i, p)) {c : Command}
    (hfirst : p.first = some c) {endpoint : String} (hreports : c.ReportsSuccess endpoint)
    (hresolve : N.resolve endpoint = some j) (k : LogKey) :
    ((N.view a.shared j).log k).map (·.withDeleted false) <+:
      ((N.view b.shared i).log k).map (·.withDeleted false) := by
  have hcond : ∀ i s c answer, N.BelowLimit i s c answer → N.BelowLimit i s c answer :=
    fun _ _ _ _ h => h
  have hstart : (N.system.restrict N.BelowLimit).Step a
      ⟨a.shared, a.tasks ++ [(i, (syncOnce config).discard)]⟩ := .start (Starts.syncOnce _ hlocal)
  have hkept := kept_of_reaches hdistinct hcond (hrun.tail hstart)
  have hstarted : (a.tasks ++ [(i, (syncOnce config).discard)])[a.tasks.length]? =
      some (i, (syncOnce config).discard) := List.getElem?_concat_length
  have hnow : ∃ q, b.tasks[a.tasks.length]? = some (i, q) ∧
      (N.reporting (N.view a.shared)).Meets i q (fun _ _ => True) (N.view b.shared) :=
    hpass.meets (fun _ _ _ _ h => h)
      (fun _ _ hP hstep => kept_step (fun _ _ w hstarts => meets_of_starts rfl hstarts w)
        (honours hdistinct hcond) hP hstep)
      (fun _ _ _ _ _ _ _ hP htask hanswer => ⟨hP.later (honours hdistinct hcond)
        (Step.answer htask hanswer), tells_of_answers hP.1 hanswer.2⟩)
      hkept hstarted (reporting_syncPeers (Grown.refl _) config config.peers none).discard
  obtain ⟨q, hq, hmeets⟩ := hnow
  rw [htask] at hq
  cases hq
  cases p with
  | ret value => cases hfirst
  | fail error => cases hfirst
  | call c' next =>
      cases hfirst
      have htruthful := (hmeets _ ((N.reporting _).refl _)).1.2 endpoint j hreports hresolve k
      exact map_log_prefix_of_current_le hdistinct hrun (.head hstart hpass) htruthful

theorem exists_reporting (hredb : ∀ x, N.storage x = .redb) (hdistinct : N.Distinct)
    (hrun : (N.system.restrict N.BelowLimit).Reaches (.init N.fresh) a) {spec : PeerSpec}
    (hpeer : N.Peers i j spec) : ∃ b p c,
      (N.system.restrict N.BelowLimit).Reaches
        ⟨a.shared, a.tasks ++ [(i, (syncOnce ⟨N.node i, [spec], 0⟩).discard)]⟩ b ∧
      b.tasks[a.tasks.length]? = some (i, p) ∧ p.first = some c ∧
      c.ReportsSuccess spec.endpoint := by
  have hs := (kept_of_reaches hdistinct (fun _ _ _ _ h => h) hrun).1
  obtain ⟨out, s', hruns, rfl, -⟩ := exists_runs_of_performs hredb
    (fun _ _ _ _ happends _ => belowLimit_of_appends happends) hrun
    (calls_of_keeps (visits_appends.syncPeer (N.node i) 0)) (hpeer.performs_syncPeer hs.1
      (Logs.honest_of_messages ((honest_of_reaches hrun).2 j)) (hs.uniform hdistinct j) 0)
  rw [syncPeer_eq] at hruns
  obtain ⟨_, s₁, hvisit, -⟩ := hruns.of_bind
  -- The visit is over; the clock is read twice before the record is written.
  have hclock : ∀ next : UInt64 → Server String Unit,
      Advances ((N.system.restrict N.BelowLimit).Answers i) s₁ (.call .nowMs next) s₁ (next 0) :=
    fun next => .call ⟨trivial, rfl⟩ (.refl _ _)
  have hpart : ∃ q c, Advances ((N.system.restrict N.BelowLimit).Answers i) a.shared
      (syncPeer (N.node i) spec 0) s₁ q ∧ q.first = some c ∧ c.ReportsSuccess spec.endpoint := by
    rw [syncPeer_eq]
    refine ⟨_, _, ((Advances.of_runs hvisit).bind _).trans ((hclock _).trans (hclock _)), rfl, ?_⟩
    exact ⟨rfl, rfl, rfl⟩
  obtain ⟨q, c, hadvances, hfirst, hreports⟩ := hpart
  have hstarted : (a.tasks ++ [(i, (syncOnce ⟨N.node i, [spec], 0⟩).discard)])[a.tasks.length]? =
      some (i, (syncOnce ⟨N.node i, [spec], 0⟩).discard) := List.getElem?_concat_length
  refine ⟨_, _, c, reaches_of_advances (hadvances.attempt.bind _).discard hstarted,
    List.getElem?_set_self (List.getElem?_eq_some_iff.mp hstarted).1, ?_, hreports⟩
  rw [first_discard]
  exact first_bind _ (first_attempt.trans hfirst)

omit [Formats] [DecidableEq ι] in
theorem success_reports_truthful_pair : letI := Serde.formats
    ∃ (a b : State Bool (pair .redb).Stores Command Command.Answer) (p : Server Unit Unit)
      (c : Command), ((pair .redb).system.restrict (pair .redb).BelowLimit).Reaches
        (.init (pair .redb).fresh) a ∧
      (((pair .redb).view a.shared true).message entryLog 1).isSome ∧
      ((pair .redb).system.restrict (pair .redb).BelowLimit).Reaches ⟨a.shared, a.tasks ++
        [(false, (syncOnce ⟨(pair .redb).node false, [⟨"peer", none⟩], 0⟩).discard)]⟩ b ∧
      b.tasks[a.tasks.length]? = some (false, p) ∧ p.first = some c ∧ c.ReportsSuccess "peer" ∧
      (((pair .redb).view a.shared true).log entryLog).map (·.withDeleted false) <+:
        (((pair .redb).view b.shared false).log entryLog).map (·.withDeleted false) := by
  let := Serde.formats
  obtain ⟨a, hrun, ha⟩ := exists_publishedOnce lenient_belowLimit (permits_belowLimit (by decide))
  obtain ⟨b, p, c, hpass, htask, hfirst, hreports⟩ :=
    exists_reporting (by decide) (distinct_pair .redb) hrun peers_pair
  refine ⟨a, b, p, c, hrun, ?_, hpass, htask, hfirst, hreports, success_reports_truthful
    (distinct_pair .redb) hrun rfl hpass htask hfirst hreports rfl entryLog⟩
  rw [ha.1.2]
  exact congrArg Option.isSome (message_filled_succ 0)

end Run

/-! ## Failures -/

def accounting (N : Network ι) : Contract ι ((ι → Logs) × List (Event ι Command Command.Answer))
    Command Command.Answer :=
  .ofAnswers (fun w w' => Grown w.1 w'.1 ∧ ∀ event ∈ w.2, event ∈ w'.2)
    (fun w => ⟨Grown.refl w.1, fun _ h => h⟩)
    (fun h₁ h₂ => ⟨h₁.1.trans h₂.1, fun event h => h₂.2 event (h₁.2 event h)⟩)
    fun i w c answer => N.Tells i w.1 c answer ∧ (i, ⟨c, answer⟩) ∈ w.2

def account (N : Network ι) (s : N.Stores × List (Event ι Command Command.Answer)) :
    (ι → Logs) × List (Event ι Command Command.Answer) :=
  (N.view s.1, s.2)

/-- Daemon `i` has come as far as each of the peers was at `w₀`, but for those whose
failure it has recorded. -/
def Accounted (N : Network ι) (i : ι) (w₀ : ι → Logs) (peers : List PeerSpec)
    (w : (ι → Logs) × List (Event ι Command Command.Answer)) : Prop :=
  ∀ peer ∈ peers, (∀ j, N.resolve peer.endpoint = some j →
      ∀ k, ((w₀ j).current k).toNat ≤ ((w.1 i).current k).toNat) ∨
    ∃ (c : Command) (answer : c.Answer), c.ReportsFailure peer.endpoint ∧ (i, ⟨c, answer⟩) ∈ w.2

section Accounting

variable {w : (ι → Logs) × List (Event ι Command Command.Answer)}

omit [Formats] in
theorem accounting_recordPeerSyncFailure (peer : PeerSpec) (error : String) :
    N.accounting.Meets i (recordPeerSyncFailure peer none none 0 0 error)
      (fun w' _ => ∃ (c : Command) (answer : c.Answer),
        c.ReportsFailure peer.endpoint ∧ (i, ⟨c, answer⟩) ∈ w'.2) w := by
  intro w₁ _
  refine ⟨trivial, fun now w₂ _ _ w₃ _ => ⟨trivial, fun answer w₄ _ hens => ?_⟩⟩
  have hrecorded := hens.2
  cases answer with
  | error e =>
      refine ⟨_, _, ?_, hrecorded⟩
      exact ⟨rfl, rfl, rfl⟩
  | ok u =>
      refine ⟨_, _, ?_, hrecorded⟩
      exact ⟨rfl, rfl, rfl⟩

/-- However a pass ends, all its peers are accounted for. -/
theorem accounting_syncPeers {w₀ : ι → Logs} (hw : Grown w₀ w.1) (config : PeerSyncConfig)
    (peers : List PeerSpec) (firstError : Option String) :
    N.accounting.Meets i (syncPeers config peers firstError)
      (fun w' _ => N.Accounted i w₀ peers w') w := by
  induction peers generalizing w firstError with
  | nil =>
      unfold syncPeers
      cases firstError with
      | none => exact fun peer hmem => absurd hmem List.not_mem_nil
      | some error => exact fun peer hmem => absurd hmem List.not_mem_nil
  | cons peer rest ih =>
      have hsync : N.accounting.Gives i (syncPeer config.localNode peer config.batchLimit)
          (fun _ w' => ∀ j, N.resolve peer.endpoint = some j →
            ∀ k, ((w.1 j).current k).toNat ≤ ((w'.1 i).current k).toNat) w := by
        refine Meets.lift Prod.fst ?_ ?_ ?_ (gives_syncPeer config.localNode peer config.batchLimit)
        · exact fun hlater => hlater.1
        · exact fun _ => trivial
        · exact fun hens => hens.1
      unfold syncPeers
      refine meets_bind (meets_attempt (hsync.and_later.consequence ?_))
      rintro w₁ (error | u) ⟨hw₁, hheld⟩
      · refine meets_bind (meets_attempt
          ((accounting_recordPeerSyncFailure peer error).and_later.consequence ?_))
        rintro w₂ out ⟨hw₂, c, answer, hreports, hrecorded⟩
        have hlater := hw.trans (hw₁.1.trans hw₂.1)
        refine (ih hlater (firstError.or (some error))).and_later.consequence ?_
        rintro w₃ _ ⟨hw₃, hrest⟩
        exact List.forall_mem_cons.mpr ⟨Or.inr ⟨c, answer, hreports, hw₃.2 _ hrecorded⟩, hrest⟩
      · refine (ih (hw.trans hw₁.1) firstError).and_later.consequence ?_
        rintro w₂ _ ⟨hw₂, hrest⟩
        refine List.forall_mem_cons.mpr ⟨Or.inl fun j hj k => ?_, hrest⟩
        exact ((hw j).head k).trans ((hheld u rfl j hj k).trans ((hw₂.1 i).head k))

end Accounting

section Run

variable [DecidableEq ι]
variable {a : State ι N.Stores Command Command.Answer} {config : PeerSyncConfig}
variable {b : State ι (N.Stores × List (Event ι Command Command.Answer)) Command Command.Answer}

/-- Whenever a pass has come to its end, however it ended: its daemon holds every
log as far as a peer of it did when the pass began, or else it has recorded the
failure of the pass with that peer. -/
theorem failures_reported (hdistinct : N.Distinct)
    (hrun : (N.system.restrict N.BelowLimit).Reaches (.init N.fresh) a)
    (hlocal : config.localNode = N.node i)
    (hpass : (N.system.restrict N.BelowLimit).traced.Reaches
      ⟨(a.shared, []), a.tasks ++ [(i, (syncOnce config).discard)]⟩ b)
    {p : Server Unit Unit} (htask : b.tasks[a.tasks.length]? = some (i, p))
    (hended : p.first = none) {peer : PeerSpec} (hpeer : peer ∈ config.peers)
    (hresolve : N.resolve peer.endpoint = some j) :
    (∀ k, ((N.view a.shared j).log k).map (·.withDeleted false) <+:
      ((N.view b.shared.1 i).log k).map (·.withDeleted false)) ∨
    ∃ (c : Command) (answer : c.Answer), c.ReportsFailure peer.endpoint ∧
      (i, ⟨c, answer⟩) ∈ b.shared.2 := by
  have hcond : ∀ i s c answer, N.BelowLimit i s c answer → N.BelowLimit i s c answer :=
    fun _ _ _ _ h => h
  have hstart : (N.system.restrict N.BelowLimit).Step a
      ⟨a.shared, a.tasks ++ [(i, (syncOnce config).discard)]⟩ := .start (Starts.syncOnce _ hlocal)
  have hkept := kept_of_reaches hdistinct hcond (hrun.tail hstart)
  have hstarted : (a.tasks ++ [(i, (syncOnce config).discard)])[a.tasks.length]? =
      some (i, (syncOnce config).discard) := List.getElem?_concat_length
  have hhonours := (honours hdistinct hcond).traced
  have hbegin : N.accounting.Meets i (syncOnce config).discard
      (fun w' _ => N.Accounted i (N.view a.shared) config.peers w') (N.account (a.shared, [])) :=
    meets_discard (accounting_syncPeers (w := N.account (a.shared, [])) (Grown.refl (N.view a.shared))
      config config.peers none)
  have hnow : ∃ q, b.tasks[a.tasks.length]? = some (i, q) ∧ N.accounting.Meets i q
      (fun w' _ => N.Accounted i (N.view a.shared) config.peers w') (N.account b.shared) := by
    refine hpass.meets ?_ (fun _ _ hP hstep => kept_step (fun _ _ w hstarts =>
      meets_of_starts rfl hstarts w) hhonours hP hstep) ?_ hkept hstarted hbegin
    · intro out w w' hlater haccounted peer hmem
      refine (haccounted peer hmem).imp (fun hheld j hj k => ?_) fun hfailed => ?_
      · exact (hheld j hj k).trans ((hlater.1 i).head k)
      · obtain ⟨c, answer, hreports, hrecorded⟩ := hfailed
        exact ⟨c, answer, hreports, hlater.2 _ hrecorded⟩
    · rintro a' n x c next answer ⟨s', events⟩ hP htask' ⟨hanswer, rfl⟩
      refine ⟨⟨?_, fun _ => List.mem_cons_of_mem _⟩, ?_, List.mem_cons_self⟩
      · exact hP.later hhonours (Step.answer htask' ⟨hanswer, rfl⟩)
      · exact tells_of_answers hP.1 hanswer.2
  obtain ⟨q, hq, hmeets⟩ := hnow
  rw [htask] at hq
  cases hq
  have haccounted : N.Accounted i (N.view a.shared) config.peers (N.account b.shared) := by
    cases p with
    | ret value => exact hmeets
    | fail error => exact hmeets
    | call c next => cases hended
  refine (haccounted peer hpeer).imp_left fun hheld k => ?_
  exact map_log_prefix_of_current_le hdistinct hrun (.head hstart hpass.of_traced)
    (hheld j hresolve k)

theorem Rests.exists_failed_pass {w : ι → Logs} (ha : N.Rests w a) (spec : PeerSpec) :
    ∃ b, (N.system.restrict N.BelowLimit).Reaches
        ⟨a.shared, a.tasks ++ [(i, (syncOnce ⟨N.node i, [spec], 0⟩).discard)]⟩ b ∧
      b.tasks[a.tasks.length]? = some (i, .fail ()) ∧ N.Settled w b.shared := by
  obtain ⟨s', hrecord, hs'⟩ := (lenient_belowLimit.calm i w).runs_recordPeerSyncFailure ha.1 spec
    none none 0 0 "unreachable"
  have hconnect : Runs ((N.system.restrict N.BelowLimit).Answers i) a.shared (connectPeer spec)
      (.error "unreachable") a.shared :=
    .call (show (N.system.restrict N.BelowLimit).Answers i a.shared (.connect spec.endpoint)
      (Except.error "unreachable") a.shared from ⟨trivial, rfl⟩) (.fail _ _)
  have hpeer : Runs ((N.system.restrict N.BelowLimit).Answers i) a.shared
      (syncPeer (N.node i) spec 0) (.error "unreachable") a.shared := hconnect.bind_error
  have hpass : Runs ((N.system.restrict N.BelowLimit).Answers i) a.shared
      (syncOnce ⟨N.node i, [spec], 0⟩) (.error "unreachable") s' :=
    hpeer.attempt.bind (hrecord.attempt.bind (.fail _ _))
  have hstarted : (a.tasks ++ [(i, (syncOnce ⟨N.node i, [spec], 0⟩).discard)])[a.tasks.length]? =
      some (i, (syncOnce ⟨N.node i, [spec], 0⟩).discard) := List.getElem?_concat_length
  exact ⟨_, reaches_of_runs hpass.discard hstarted,
    List.getElem?_set_self (List.getElem?_eq_some_iff.mp hstarted).1, hs'⟩

omit [Formats] [DecidableEq ι] in
/-- A pass that could not connect has brought nothing, and has recorded that. -/
theorem failures_reported_unreachable : letI := Serde.formats
    ∃ (a b : State Bool (pair .redb).Stores Command Command.Answer)
      (events : List (Event Bool Command Command.Answer)),
      ((pair .redb).system.restrict (pair .redb).BelowLimit).Reaches (.init (pair .redb).fresh) a ∧
      (((pair .redb).view a.shared true).log entryLog).length = 1 ∧
      ((pair .redb).system.restrict (pair .redb).BelowLimit).traced.Reaches ⟨(a.shared, []),
        a.tasks ++ [(false, (syncOnce ⟨(pair .redb).node false, [⟨"peer", none⟩], 0⟩).discard)]⟩
        ⟨(b.shared, events), b.tasks⟩ ∧
      b.tasks[a.tasks.length]? = some (false, .fail ()) ∧
      ((pair .redb).view b.shared false).log entryLog = [] ∧
      ∃ (c : Command) (answer : c.Answer), c.ReportsFailure "peer" ∧
        (false, ⟨c, answer⟩) ∈ events := by
  let := Serde.formats
  obtain ⟨a, hrun, ha⟩ := exists_publishedOnce lenient_belowLimit (permits_belowLimit (by decide))
  obtain ⟨b, hpass, hdone, hb⟩ := ha.exists_failed_pass (i := false) ⟨"peer", none⟩
  obtain ⟨events, hrecorded⟩ := hpass.recorded []
  have howned : (((pair .redb).view a.shared true).log entryLog).length = 1 := by
    rw [ha.1.2, Logs.length_log (ha.1.wellFormed true)]
    exact current_filled 1 (by decide)
  have hnothing : ((pair .redb).view b.shared false).log entryLog = [] := by
    rw [hb.2]
    rfl
  refine ⟨a, b, events, hrun, howned, hrecorded, hdone, hnothing, ?_⟩
  refine (failures_reported (distinct_pair .redb) hrun rfl hrecorded hdone rfl
    (List.mem_singleton_self _) peers_pair.1).resolve_left fun hheld => ?_
  have hlength := (hheld entryLog).length_le
  rw [List.length_map, List.length_map, hnothing, howned] at hlength
  exact absurd hlength (by decide)

end Run

end Network

end Msgbus

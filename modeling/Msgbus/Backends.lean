import Msgbus.Redb.Refines
import Msgbus.Sqlite.Refines

/-!
# What both backends guarantee

A `Backend` is a store with a view of its logs that refines the abstract model.
What is proved here from the refinement alone holds of redb, of SQLite and of a
daemon that runs either.
-/

namespace Msgbus

/-- A store whose calls refine the abstract logs. -/
class Backend [Formats] (σ : Type) extends MsgbusStore σ where
  logs : σ → Logs
  Inv : σ → Prop
  inv_empty : Inv MsgbusStore.empty
  logs_empty : logs MsgbusStore.empty = Logs.empty
  wellFormed : ∀ {s}, Inv s → (logs s).WellFormed
  refines : ∀ {s s' : σ} {env : CallEnv} {op : StoreOp} {r : op.Result}, Inv s →
    op.exec s env = .ok (r, s') → Inv s' ∧ Logs.Step env op r (logs s) (logs s')
  /-- What the backend asks of a call beyond what the logs ask. -/
  Accepts : Logs → CallEnv → StoreOp → Prop
  refused : ∀ {s : σ} {env : CallEnv} {op : StoreOp} {e : MsgbusError}, Inv s →
    op.onLogs = true → Accepts (logs s) env op → op.exec s env = .error e →
      (logs s).refuses op = some e.kind
  getHead_eq : ∀ {s : σ} (topic : Topic) (origin : NodeId), Inv s →
    MsgbusStore.getHead s topic origin = .ok ((logs s).head (LogKey.of topic origin))
  /-- What a fetch returns depends on the log it is addressed to alone. -/
  fetchMessages_congr : ∀ {s s' : σ} {query : FetchQuery}, Inv s → Inv s' →
    (logs s).log (LogKey.of query.topic query.origin) =
        (logs s').log (LogKey.of query.topic query.origin) →
      MsgbusStore.fetchMessages s query = MsgbusStore.fetchMessages s' query

variable [Formats]

instance : Backend Redb where
  logs := Redb.logs
  Inv := Redb.Inv
  inv_empty := Redb.inv_openEmpty
  logs_empty := Redb.logs_openEmpty
  wellFormed := fun h => h.wellFormed
  refines := Redb.exec_refines
  Accepts := fun _ _ _ => True
  refused := fun hs hop _ h => Redb.exec_refused hs hop h
  getHead_eq := fun _ _ _ => rfl
  fetchMessages_congr := by
    intro s s' query hs hs' h
    change Redb.fetchMessages s query = Redb.fetchMessages s' query
    rw [Redb.fetchMessages_eq hs, Redb.fetchMessages_eq hs', Logs.window_congr h]

instance : Backend Sqlite where
  logs := Sqlite.logs
  Inv := Sqlite.Inv
  inv_empty := Sqlite.inv_openEmpty
  logs_empty := Sqlite.logs_openEmpty
  wellFormed := fun h => h.wellFormed
  refines := Sqlite.exec_refines
  Accepts := fun b env op => Sqlite.Readable b ∧ Sqlite.Accepts b env op
  refused := fun hs hop haccepts h => Sqlite.exec_refused hs hop haccepts.1 haccepts.2 h
  getHead_eq := fun topic origin hs => Sqlite.selectHead_eq hs.coded topic origin
  fetchMessages_congr := by
    intro s s' query hs hs' h
    change Sqlite.fetchMessages s query = Sqlite.fetchMessages s' query
    rw [Sqlite.fetchMessages_eq hs, Sqlite.fetchMessages_eq hs', Logs.window_congr h]

namespace Backend

variable {σ : Type} [Backend σ] {s : σ}

/-- A call, whatever its outcome, takes an abstract step or changes nothing. -/
theorem after_cases (hs : Inv s) (env : CallEnv) (op : StoreOp) :
    (∃ r, op.exec s env = .ok (r, op.after s env) ∧ Inv (op.after s env) ∧
      Logs.Step env op r (logs s) (logs (op.after s env))) ∨ op.after s env = s := by
  unfold StoreOp.after
  cases hexec : op.exec s env with
  | error e => exact Or.inr rfl
  | ok result =>
      obtain ⟨r, s'⟩ := result
      exact Or.inl ⟨r, rfl, refines hs hexec⟩

theorem exec_eq_ok {env : CallEnv} {op : StoreOp} (hs : Inv s) (hop : op.onLogs = true)
    (haccepts : Accepts σ (logs s) env op) (hrefuses : (logs s).refuses op = none) :
    ∃ r s', op.exec s env = .ok (r, s') := by
  cases hexec : op.exec s env with
  | ok result => exact ⟨result.1, result.2, rfl⟩
  | error e =>
      have hkind := refused hs hop haccepts hexec
      rw [hrefuses] at hkind
      cases hkind

theorem inv_after (hs : Inv s) (env : CallEnv) (op : StoreOp) : Inv (op.after s env) := by
  rcases after_cases hs env op with ⟨r, -, hinv, -⟩ | heq
  · exact hinv
  · rw [heq]
    exact hs

theorem inv_of_reachable (hs : Reachable s) : Inv s := by
  induction hs with
  | empty => exact inv_empty
  | call env op _ ih => exact inv_after ih env op

theorem grows_after (hs : Inv s) {env : CallEnv} {op : StoreOp}
    (hlimit : ∀ k ∈ op.appendsTo, (logs s).current k ≠ UInt64.maxValue) :
    (logs s).Grows (logs (op.after s env)) := by
  rcases after_cases hs env op with ⟨r, -, -, hstep⟩ | heq
  · exact Logs.step_grows (wellFormed hs) hlimit hstep
  · rw [heq]
    exact .refl _

theorem listHeads_eq (hs : Inv s) {env : CallEnv} (haccepts : Accepts σ (logs s) env .listHeads) :
    ∃ heads, MsgbusStore.listHeads s = .ok heads ∧ heads.Nodup ∧
      ∀ h, h ∈ heads ↔ (logs s).IsHead h := by
  obtain ⟨heads, s', hexec⟩ := exec_eq_ok hs rfl haccepts rfl
  obtain ⟨hnodup, hmem, -⟩ := (refines hs hexec).2
  refine ⟨heads, ?_, hnodup, hmem⟩
  obtain ⟨stored, hrun, heq⟩ := Except.map_eq_ok.mp hexec
  cases heq
  exact hrun

theorem fetchMessages_eq (hs : Inv s) {env : CallEnv} {query : FetchQuery}
    (haccepts : Accepts σ (logs s) env (.fetchMessages query)) :
    MsgbusStore.fetchMessages s query = .ok ((logs s).window
      (LogKey.of query.topic query.origin) query.fromHeadId (effectiveLimit query.limit)) := by
  obtain ⟨messages, s', hexec⟩ := exec_eq_ok hs rfl haccepts rfl
  obtain ⟨rfl, -⟩ := (refines hs hexec).2
  obtain ⟨stored, hrun, heq⟩ := Except.map_eq_ok.mp hexec
  cases heq
  exact hrun

end Backend

/-! ## Either backend -/

inductive StorageKind where
  | redb
  | sqlite
  deriving DecidableEq

abbrev StorageKind.Store : StorageKind → Type
  | redb => Redb
  | sqlite => Sqlite

instance instBackendStore : (kind : StorageKind) → Backend kind.Store
  | .redb => inferInstanceAs (Backend Redb)
  | .sqlite => inferInstanceAs (Backend Sqlite)

namespace StorageKind

def logs (kind : StorageKind) (s : kind.Store) : Logs :=
  @Backend.logs _ _ (instBackendStore kind) s

def Inv (kind : StorageKind) (s : kind.Store) : Prop :=
  @Backend.Inv _ _ (instBackendStore kind) s

def counterLimit : StorageKind → Nat
  | redb => UInt64.maxValue.toNat
  | sqlite => i64Max

omit [Formats] in
theorem toNat_le_counterLimit_redb (n : UInt64) : n.toNat ≤ redb.counterLimit := by
  have hlt := n.toNat_lt
  change _ ≤ UInt64.maxValue.toNat
  rw [UInt64.toNat_maxValue]
  omega

end StorageKind

end Msgbus

import Msgbus.Logs.Growth
import Msgbus.Server.Obligations

/-!
# Stored markers are applied or about to be

What holds of the delete markers in a store while its calls succeed: the range
of each live one has been recorded, or some task is about to do it.
-/

namespace Msgbus

variable [Formats] {b b' : Logs}

/-- The range of every live marker has been recorded, or the call to do it is
among those about to be made. -/
def AppliedOr (b : Logs) (aboutTo : Command → Prop) : Prop :=
  ∀ k n m range, b.message k n = some m → StoredMessage.Marks m range →
    b.tombstone (LogKey.of range.topic range.origin) range.fromHeadId range.toHeadId ∨
      aboutTo (.store range.op)

/-- A call that succeeds leaves every live marker applied or about to be, if no
other kind of call puts messages on the delete topic and a stored marker is
followed by the call that applies it. -/
theorem AppliedOr.step {env : CallEnv} {op : StoreOp} {r : op.Result}
    {aboutTo aboutTo' : Command → Prop} (h : AppliedOr b aboutTo)
    (hstep : Logs.Step env op r b b')
    (hstay : ∀ c, aboutTo c → c ≠ .store op → aboutTo' c)
    (happend : ∀ msg, op = .appendMessage msg → msg.topic ≠ deleteTopic)
    (hput : ∀ m range, op = .putReplicatedMessage m → m.Marks range →
      aboutTo' (.store range.op)) : AppliedOr b' aboutTo' := by
  intro k n m range hm hmarks
  obtain ⟨htopic, hlive, hslice, -⟩ := StoredMessage.marks_iff.mp hmarks
  rcases Logs.step_message_cases hstep hm with ⟨old, hold, hkeep⟩ | ⟨msg, hop, hstamp⟩ |
    ⟨msg, hop, hnew⟩ | ⟨topic, origin, first, last, markerTopic, markerOrigin, hop, hnew⟩
  · rw [hkeep.eq_of_not_deleted hlive] at hold
    rcases h k n m range hold hmarks with hrange | habout
    · exact Or.inl ((Logs.step_tombstone_iff hstep).mpr (Or.inl hrange))
    -- The call that was about to apply the marker has now been made, or still stands.
    · by_cases hc : Command.store range.op = .store op
      · cases Command.store.inj hc
        exact Or.inl (hstep.2.2 ▸ Or.inr ⟨rfl, rfl, rfl⟩)
      · exact Or.inr (hstay _ habout hc)
  · have hmsg : msg = m := Logs.eq_of_stamp_live hstamp hlive
    exact Or.inr (hput msg range hop (hmsg ▸ hmarks))
  · rw [hnew] at htopic
    exact absurd htopic (happend msg hop)
  · subst hop
    rw [hnew] at hslice
    have hrange := hslice.symm.trans (Formats.tombstoneRange.fromSlice_toVec _)
    cases hrange
    exact Or.inl (hstep.2.2.2 ▸ Or.inr ⟨rfl, rfl, rfl⟩)

end Msgbus

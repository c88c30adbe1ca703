import Msgbus.Server.Sync

/-!
# Pinned peers

A peer is configured as `endpoint` or as `endpoint=tenant/bl/device`, the second
form naming the identity the endpoint must prove.  `validate_part` admits both
separators inside the parts of an identity, and reading the text back undoes
writing it only for identities without them.
-/

namespace Msgbus

open TextKey

def NodeId.Free (c : Char) (node : NodeId) : Prop :=
  c ∉ node.tenantId.toList ∧ c ∉ node.blName.toList ∧ c ∉ node.deviceId.toList

instance NodeId.decidableFree (c : Char) (node : NodeId) : Decidable (node.Free c) :=
  inferInstanceAs (Decidable (_ ∧ _ ∧ _))

namespace NodeId

theorem toList_key (node : NodeId) :
    node.key.toList =
      ['/'].intercalate [node.tenantId.toList, node.blName.toList, node.deviceId.toList] := by
  simp [key, String.toList_append, List.intercalate]

theorem free_iff_notMem_key {c : Char} (hc : c ≠ '/') {node : NodeId} :
    node.Free c ↔ c ∉ node.key.toList := by
  simp [Free, key, String.toList_append, hc]

theorem fromKey_eq_ok {value : String} {node : NodeId} :
    fromKey value = .ok node ↔ value = node.key ∧ node.Valid ∧ node.Free '/' := by
  constructor
  · intro h
    unfold fromKey at h
    split at h
    case h_4 tenantId blName deviceId hsplit =>
      obtain ⟨-, hfree, hvalue⟩ := splitOn_eq_iff.mp hsplit
      obtain ⟨rfl, hvalid⟩ := NodeId.new_eq_ok.mp h
      refine ⟨?_, hvalid, ?_⟩
      · rw [← String.toList_inj, toList_key, hvalue]
        simp
      · simpa [Free] using hfree
    all_goals cases h
  · rintro ⟨rfl, hvalid, htenant, hbl, hdevice⟩
    have hsplit : node.key.toList.splitOn '/' =
        [node.tenantId.toList, node.blName.toList, node.deviceId.toList] := by
      refine splitOn_eq_iff.mpr ⟨by simp, ?_, toList_key node⟩
      simpa using ⟨htenant, hbl, hdevice⟩
    unfold fromKey
    rw [hsplit]
    simpa using NodeId.new_eq_ok.mpr ⟨rfl, hvalid⟩

end NodeId

theorem isBlank_append_left {s t : String} (h : isBlank s = false) : isBlank (s ++ t) = false := by
  unfold isBlank at h ⊢
  rw [String.toList_append, List.all_append, h, Bool.false_and]

/-- What `parse` accepts with an identity is an endpoint, the last `=` and the key. -/
theorem PeerSpec.parse_eq_ok_some {value endpoint : String} {node : NodeId} :
    PeerSpec.parse value = .ok ⟨endpoint, some node⟩ ↔
      value = endpoint ++ "=" ++ node.key ∧ isBlank endpoint = false ∧
        node.Valid ∧ node.Free '/' ∧ node.Free '=' := by
  constructor
  · intro h
    unfold PeerSpec.parse at h
    split_ifs at h with hblank
    split at h
    case h_1 before after hsplit =>
      split_ifs at h with hempty
      obtain ⟨parsed, hnode, hspec⟩ := Except.bind_eq_ok.mp h
      cases hspec
      obtain ⟨hvalue, hafter⟩ := eq_of_rsplitOnce hsplit
      obtain ⟨hkey, hvalid, hslash⟩ := NodeId.fromKey_eq_ok.mp hnode
      rw [← String.toList_inj, String.toList_ofList] at hkey
      refine ⟨?_, Bool.not_eq_true _ ▸ hempty, hvalid, hslash, ?_⟩
      · rw [← String.toList_inj, hvalue, hkey]
        simp [String.toList_append]
      · rw [NodeId.free_iff_notMem_key (by decide), ← hkey]
        exact hafter
    case h_2 => cases h
  · rintro ⟨rfl, hendpoint, hvalid, hslash, hequals⟩
    have hvalue : (endpoint ++ "=" ++ node.key).toList =
        endpoint.toList ++ '=' :: node.key.toList := by
      simp [String.toList_append]
    have hsplit := rsplitOnce_append ((NodeId.free_iff_notMem_key (by decide)).mp hequals)
      endpoint.toList
    have hnode := NodeId.fromKey_eq_ok.mpr ⟨rfl, hvalid, hslash⟩
    unfold PeerSpec.parse
    rw [isBlank_append_left (isBlank_append_left hendpoint), hvalue, hsplit]
    simp [hendpoint, hnode]

/-- Pinning an identity round-trips exactly when none of its parts contains one
of the two separators; the identity alone, when none contains `/`. -/
theorem pinning_round_trips_iff (endpoint tenantId blName deviceId : String) (node : NodeId)
    (hendpoint : isBlank endpoint = false) (hnode : NodeId.new tenantId blName deviceId = .ok node) :
    (PeerSpec.parse (endpoint ++ "=" ++ node.key) = .ok ⟨endpoint, some node⟩ ↔
        node.Free '/' ∧ node.Free '=') ∧
      (NodeId.fromKey node.key = .ok node ↔ node.Free '/') := by
  have hvalid := (NodeId.new_eq_ok.mp hnode).2
  constructor
  · rw [PeerSpec.parse_eq_ok_some]
    constructor
    · rintro ⟨-, -, -, hfree⟩
      exact hfree
    · intro hfree
      exact ⟨rfl, hendpoint, hvalid, hfree⟩
  · rw [NodeId.fromKey_eq_ok]
    constructor
    · rintro ⟨-, -, hfree⟩
      exact hfree
    · intro hfree
      exact ⟨rfl, hvalid, hfree⟩

theorem pinning_round_trips_plain :
    PeerSpec.parse ("http://h:1" ++ "=" ++ "a/b/c") =
        .ok ⟨"http://h:1", some ⟨"a", "b", "c"⟩⟩ ∧
      NodeId.fromKey "a/b/c" = .ok ⟨"a", "b", "c"⟩ := by
  have hround := pinning_round_trips_iff "http://h:1" "a" "b" "c" ⟨"a", "b", "c"⟩
    (by decide) (by decide)
  exact ⟨hround.1.mpr (by decide), hround.2.mpr (by decide)⟩

/-- An identity with `=` in a part pins another endpoint and another identity,
and the key of one with `/` in a part is refused. -/
theorem pinning_misreads_separators :
    NodeId.new "x=a" "b" "c" = .ok ⟨"x=a", "b", "c"⟩ ∧
      PeerSpec.parse ("http://h:1" ++ "=" ++ NodeId.key ⟨"x=a", "b", "c"⟩) =
        .ok ⟨"http://h:1=x", some ⟨"a", "b", "c"⟩⟩ ∧
      NodeId.new "a/b" "c" "d" = .ok ⟨"a/b", "c", "d"⟩ ∧
      NodeId.fromKey (NodeId.key ⟨"a/b", "c", "d"⟩) =
        .error (.invalidArgument "node key must have tenant_id/bl_name/device_id") := by
  refine ⟨by decide, by decide, by decide, by decide⟩

end Msgbus

import Ivy.Agent.Connecting
import Ivy.Discovery.ReadBack

/-! Where `BroadcastReceive` connects to when it is handed a line. -/
namespace Ivy.Agent
open Discovery Socket

/-- The address that is given to `SocketConnectAddr`, if it is called. -/
def attempt (applicationID : Text) (sender : ℕ) (line : Text) : Option Endpoint :=
  let r := ivyParseDiscovery (cString line) 128 2048 ⟨0, 0, fun _ => 0, fun _ => 0⟩
  if r.1 = false ∨ r.2.version ≠ ivyMajorVersion ∨ fieldString r.2.appid 128 = applicationID then none
  else some ⟨sender, r.2.port⟩

section
variable {Code User : Type*} {a : Setup Code User} {p : Process Code User} {d : Datagram}

theorem broadcastReceive_ignores (h : attempt a.applicationID d.sender d.line = none) :
    p.broadcastReceive a d = some p := by
  unfold attempt at h
  dsimp only at h
  split_ifs at h with hignored
  exact if_pos hignored

/-- One connection is attempted, and the identifier of the line is stored in what it leads to. -/
theorem broadcastReceive_attempts {remote : Endpoint} (h : attempt a.applicationID d.sender d.line = some remote) :
    ∃ appid, p.broadcastReceive a d =
      match p.socketConnectAddr d.outcome remote with
      | (p, none) => some p
      | (p, some app) => (serve a app p.world).map fun w =>
        { p with world := w, clients_list := Process.socketSetUuid app appid p.clients_list } := by
  unfold attempt at h
  dsimp only at h
  split_ifs at h with hignored
  obtain rfl := Option.some.inj h
  exact ⟨_, if_neg hignored⟩

end

theorem cString_bytes {line : Text} (h : 0 ∉ line) : (cString line).bytes = line := by
  change (line.drop 0).takeWhile (· ≠ 0) = line
  rw [List.drop_zero]
  exact List.takeWhile_eq_self_iff.mpr fun b hb => by simpa using fun hb0 : b = 0 => h (hb0 ▸ hb)

/-- The hello of another agent leads to its port on its host, the own hello and those of agents with the
same identifier to nothing. -/
theorem attempt_line {app : Application} (hterminated : app.Terminated) (h : app.Announceable)
    (applicationID : Text) (sender : ℕ) : attempt applicationID sender app.line =
      if app.applicationID = applicationID then none else some ⟨sender, app.applicationPort⟩ := by
  have hread := (readBack_iff (cString_bytes hterminated.line) ⟨0, 0, fun _ => 0, fun _ => 0⟩).mpr h
  have hignored : (true = false ∨ Discovery.ivyMajorVersion ≠ ivyMajorVersion ∨
      app.applicationID = applicationID) ↔ app.applicationID = applicationID := by
    simp [Discovery.ivyMajorVersion, ivyMajorVersion]
  unfold attempt
  dsimp only
  rw [hread.accepted, hread.version, hread.port, hread.appid, if_congr hignored rfl rfl]

end Ivy.Agent

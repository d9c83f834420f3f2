import Ivy.Discovery.Start

/-! The networks that the hellos of `IvyStart` go to, and the groups that are joined for them. -/
namespace Ivy.Discovery

inductive Network
  | ipv4 (host : UInt32)
  | ipv6 (host : Vector UInt8 16)
  deriving DecidableEq

/-- `IN_MULTICAST` and `IN6_IS_ADDR_MULTICAST` -/
def Network.isGroup : Network → Bool
  | .ipv4 host => inMulticast host
  | .ipv6 host => host[0]? == some 0xff

inductive SocketRequest
  | join (network : Network)
  | send (network : Network) (port : UInt16) (text : Text)
  deriving DecidableEq

def Action.request : Action → SocketRequest
  | .socketAddMember host => .join (.ipv4 host)
  | .socketSendBroadcast host port text => .send (.ipv4 host) port text
  | .socketAddMember6 host => .join (.ipv6 host)
  | .socketSendBroadcast6 host port text => .send (.ipv6 host) port text

/-- The network that a request sends to. -/
def SocketRequest.network : SocketRequest → Option Network
  | .join _ => none
  | .send network _ _ => some network

def supervisionPort (getenv bus : Option CString) : UInt16 :=
  let p := orElse bus (orElse getenv defaultIvyBus)
  if busPort p = 0 then ivyDefaultBus else busPort p

/-- What is sent is the hello of the application, to the port that the broadcast socket is bound to. -/
def SocketRequest.Announces (app : Application) (port : UInt16) : SocketRequest → Prop
  | .join _ => True
  | .send _ p text => p = port ∧ text = app.hello

/-- Before a datagram is sent to a group, the group is joined. -/
def Prepared (groups : List Network) : List SocketRequest → Prop
  | [] => True
  | .join network :: rs => Prepared (network :: groups) rs
  | .send network _ _ :: rs => (network.isGroup = true → network ∈ groups) ∧ Prepared groups rs

/-- One network's part. -/
def helloTo (app : Application) (port : UInt16) (network : Network) : List SocketRequest :=
  (if network.isGroup then [.join network] else []) ++ [.send network port app.hello]

section
variable (app : Application) (port : UInt16)

theorem broadcast_requests (host : UInt32) :
    (broadcast app port host).map Action.request = helloTo app port (.ipv4 host) := by
  unfold broadcast helloTo Network.isGroup
  rw [List.map_append]
  split_ifs <;> rfl

theorem prepared_hellos (networks : List Network) (groups : List Network) :
    Prepared groups (networks.flatMap (helloTo app port)) := by
  induction networks generalizing groups with
  | nil => trivial
  | cons network networks ih =>
    rw [List.flatMap_cons]
    unfold helloTo
    cases hgroup : network.isGroup with
    | true => exact ⟨fun _ => List.mem_cons_self, ih _⟩
    | false => exact ⟨fun h => absurd (hgroup.symm.trans h) Bool.false_ne_true, ih groups⟩

theorem announces_hellos (networks : List Network) :
    ∀ r ∈ networks.flatMap (helloTo app port), r.Announces app port := by
  intro r hr
  obtain ⟨network, -, hr⟩ := List.mem_flatMap.mp hr
  rcases List.mem_append.mp hr with hr | hr
  · split_ifs at hr
    · rw [List.mem_singleton.mp hr]
      trivial
    · exact absurd hr List.not_mem_nil
  · rw [List.mem_singleton.mp hr]
    exact ⟨rfl, rfl⟩

end

/-- What `IvyStart` asks for is the hello to each of some networks. -/
theorem ivyStart_requests {app : Application} {inet_pton : Text → Option (Vector UInt8 16)}
    {uninit : Option Text} {getenv bus : Option CString} {actions : List Action}
    (h : ivyStart app inet_pton uninit getenv bus = some actions) :
    ∃ networks : List Network,
      actions.map Action.request = networks.flatMap (helloTo app (supervisionPort getenv bus)) := by
  unfold ivyStart at h
  obtain ⟨addr, -, h⟩ := Option.bind_eq_some_iff.mp h
  split at h
  · rename_i host _
    refine ⟨[.ipv6 host], ?_⟩
    obtain rfl := Option.some.inj h
    have hgroup : (Network.ipv6 host).isGroup = true ↔ host[0] = 0xff := by simp [Network.isGroup]
    rw [List.flatMap_singleton, helloTo, List.map_append]
    by_cases hhost : host[0] = 0xff
    · rw [if_pos hhost, if_pos (hgroup.mpr hhost)]
      rfl
    · rw [if_neg hhost, if_neg fun h => hhost (hgroup.mp h)]
      rfl
  · obtain ⟨hosts, -, rfl⟩ := Option.map_eq_some_iff.mp h
    refine ⟨hosts.map .ipv4, ?_⟩
    rw [List.map_flatMap, List.flatMap_map]
    exact List.flatMap_congr fun host _ => broadcast_requests app _ host

end Ivy.Discovery

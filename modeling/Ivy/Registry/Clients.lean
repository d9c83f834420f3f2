import Ivy.Lib.Keyed
import Ivy.Protocol.Text

/-! The list of the connected clients, `allClients`. -/
namespace Ivy.Registry

/-- `struct _global_reg_lst` -/
structure GlobReg where
  str_regexp : Text
  id : ℤ
  deriving DecidableEq, Repr

/-- `struct _clnt_lst_dict` as a node of `allClients`: `client` is the address of the
connection and `id` the last one received. -/
structure IvyClient where
  client : ℕ
  id : ℤ
  srcRegList : List GlobReg
  endRegexpReceived : Bool

/-- Each connection has one node. -/
structure Clients where
  list : List IvyClient
  nodup : (list.map (·.client)).Nodup

namespace Clients
variable (cs : Clients)

/-- `IVY_LIST_ITER (allClients, client_itr, client_itr->client != client )` -/
def find (client : ℕ) : Option IvyClient := Keyed.find (·.client) cs.list client

def onClient (client : ℕ) (f : IvyClient → IvyClient) (clnt : IvyClient) : IvyClient :=
  if clnt.client = client then { f clnt with client := clnt.client } else clnt

theorem client_onClient (client : ℕ) (f : IvyClient → IvyClient) (clnt : IvyClient) :
    (onClient client f clnt).client = clnt.client := by
  unfold onClient
  split_ifs <;> rfl

/-- The fields of a client are assigned; `client` itself never is. -/
def modify (client : ℕ) (f : IvyClient → IvyClient) : Clients where
  list := cs.list.map (onClient client f)
  nodup := Keyed.nodup_map (client_onClient client f) cs.nodup

/-- `IVY_LIST_ADD` of the client of a new connection. -/
def add (client : ℕ) (h : cs.find client = none) : Clients where
  list := ⟨client, 0, [], false⟩ :: cs.list
  nodup := by
    rw [List.map_cons]
    exact cs.nodup.cons (Keyed.find_eq_none.mp h)

/-- `IVY_LIST_REMOVE` -/
def remove (client : ℕ) : Clients where
  list := cs.list.filter (·.client ≠ client)
  nodup := cs.nodup.sublist (List.filter_sublist.map _)

def srcs (client : ℕ) : List GlobReg := (cs.find client).elim [] (·.srcRegList)

theorem find_modify (client : ℕ) (f : IvyClient → IvyClient) (c : ℕ) :
    (cs.modify client f).find c = (cs.find c).map (onClient client f) :=
  Keyed.find_map (client_onClient client f)

theorem find_add {client : ℕ} (h : cs.find client = none) (c : ℕ) :
    (cs.add client h).find c = if client = c then some ⟨client, 0, [], false⟩ else cs.find c :=
  Keyed.find_cons _

theorem find_remove (client c : ℕ) :
    (cs.remove client).find c = if client = c then none else cs.find c := by
  have hfind : (cs.remove client).find c = (cs.find c).filter (·.client ≠ client) :=
    Keyed.find_filter _ cs.nodup
  rw [hfind]
  cases h : cs.find c with
  | none => simp
  | some clnt =>
    have hc : clnt.client = c := Keyed.find_key h
    by_cases hclient : client = c
    · simp [Option.filter_some, hc, hclient]
    · simp [Option.filter_some, hc, hclient, Ne.symm hclient]

end Clients
end Ivy.Registry

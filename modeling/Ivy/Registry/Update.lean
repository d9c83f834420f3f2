import Ivy.Registry.Clients
import Ivy.Registry.Dictionary

/-! The functions of `ivy.c` that keep the dictionary, the list of clients and the cache
of the OPENMP build. A step that the C standard leaves undefined has no result. -/
namespace Ivy.Registry

/-- What the library is told by PCRE2: the offset and the text of an error, or the code. -/
abbrev Compile (Code : Type*) := Text → Except (ℤ × Text) Code

inductive IvyBindEvent
  | addBind
  | changeBind
  | removeBind
  deriving DecidableEq, Repr

/-- What the functions do besides: error frames to a client, and calls of
`application_bind_callback`. -/
inductive Effect
  | sendError (client : ℕ) (offset : ℤ) (text : Text)
  | bindCallback (client : ℕ) (id : ℤ) (regexp : Text) (event : IvyBindEvent)
  deriving DecidableEq, Repr

/-- `ompDictCache`; a slot that was never written holds `none`. -/
structure Cache where
  msgPtrArray : ℕ → Option ℕ
  size : ℕ
  numPtr : ℕ

structure State (Code : Type*) where
  allClients : Clients
  messSndByRegexp : Dictionary Code
  ompDictCache : Cache
  effects : List Effect

variable {Code : Type*}

def initial : State Code := ⟨⟨[], by simp⟩, .empty, ⟨fun _ => none, 0, 0⟩, []⟩

def Dictionary.addresses (d : Dictionary Code) : List ℕ := d.entries.map (·.ptr)

def fill (slots : ℕ → Option ℕ) (addresses : List ℕ) (i : ℕ) : Option ℕ :=
  (addresses[i]?).or (slots i)

def regenerateRegPtrArrayCache (s : State Code) : State Code :=
  let cache := s.ompDictCache
  let addresses := s.messSndByRegexp.addresses
  let numPtr := addresses.length
  let size := if numPtr ≥ cache.size then numPtr * 2 + 128 else cache.size
  { s with ompDictCache := ⟨fill cache.msgPtrArray addresses, size, numPtr⟩ }

/-- Outside the reallocation only the last slot is written. -/
def addRegToPtrArrayCache (s : State Code) (newReg : ℕ) : State Code :=
  let cache := s.ompDictCache
  let addresses := s.messSndByRegexp.addresses
  let numPtr := addresses.length
  if numPtr ≥ cache.size then
    { s with ompDictCache := ⟨fill cache.msgPtrArray addresses, numPtr * 2 + 128, numPtr⟩ }
  else
    { s with ompDictCache :=
        ⟨fun i => if i = numPtr - 1 then some newReg else cache.msgPtrArray i, cache.size, numPtr⟩ }

def delRegexpForOneClientFromDictionary (s : State Code) (regexp : Text) (client : IvyClient) :
    State Code :=
  regenerateRegPtrArrayCache
    (match s.messSndByRegexp.hashFind regexp with
    | none => s
    | some msgSendDict =>
      { s with messSndByRegexp :=
          delOneIvyClientFromDictionaryEntry s.messSndByRegexp msgSendDict client.client client.id })

/-- The text that `snprintf` leaves in `errorbuffer[1024]`. -/
def errorBuffer (regexp errbuf : Text) : Text :=
  (ascii "Error compiling '" ++ regexp ++ ascii "', " ++ errbuf).take 1023

/-- The part of `addRegexpToDictionary` for a regexp that has no entry. -/
def addEntry (compile : Compile Code) (s : State Code) (regexp : Text) (client : IvyClient)
    (h : s.messSndByRegexp.hashFind regexp = none) : State Code :=
  let binding := compile regexp
  let effects := match binding with
    | .ok _ => s.effects
    | .error (erroffset, errbuf) =>
      s.effects ++ [.sendError client.client erroffset (errorBuffer regexp errbuf)]
  let msgSendDict := s.messSndByRegexp.brk
  let s := { s with
    messSndByRegexp := s.messSndByRegexp.hashAdd regexp binding.toOption h, effects := effects }
  if client.endRegexpReceived then addRegToPtrArrayCache s msgSendDict else s

def addRegexpToDictionary (compile : Compile Code) (s : State Code) (regexp : Text)
    (client : IvyClient) : State Code :=
  let newClient : Subscriber := ⟨client.client, client.id⟩
  match h : s.messSndByRegexp.hashFind regexp with
  | some msgSendDict =>
    { s with messSndByRegexp := addToClientList s.messSndByRegexp msgSendDict.ptr newClient }
  | none =>
    let msgSendDict := s.messSndByRegexp.brk
    let s := addEntry compile s regexp client h
    { s with messSndByRegexp := addToClientList s.messSndByRegexp msgSendDict newClient }

def changeRegexpInDictionary (compile : Compile Code) (s : State Code) (regexp : Text)
    (client : IvyClient) : State Code :=
  addRegexpToDictionary compile (delRegexpForOneClientFromDictionary s regexp client) regexp client

def bindCallback (s : State Code) (client : IvyClient) (regexp : Text) (event : IvyBindEvent) :
    State Code :=
  { s with effects := s.effects ++ [.bindCallback client.client client.id regexp event] }

/-- A client that is not in `allClients` is a null `client_itr`. -/
def addRegexp (compile : Compile Code) (s : State Code) (regexp : Text) (client : IvyClient) :
    Option (State Code) :=
  let s := addRegexpToDictionary compile s regexp client
  match s.allClients.find client.client with
  | none => none
  | some _ =>
    let s := { s with allClients := s.allClients.modify client.client fun clnt =>
      { clnt with srcRegList := ⟨regexp, client.id⟩ :: clnt.srcRegList } }
    some (bindCallback s client regexp .addBind)

def changeRegexp (compile : Compile Code) (s : State Code) (regexp : Text) (client : IvyClient) :
    State Code :=
  let s := changeRegexpInDictionary compile s regexp client
  let s := { s with allClients := s.allClients.modify client.client fun clnt =>
    { clnt with srcRegList := clnt.srcRegList.map fun regxpSrc =>
        if regxpSrc.id = client.id then { regxpSrc with str_regexp := regexp } else regxpSrc } }
  bindCallback s client regexp .changeBind

/-- The first node of the connection under the regexp has the id of the client. -/
def Dictionary.lists (d : Dictionary Code) (regexp : Text) (client : ℕ) (id : ℤ) : Bool :=
  match d.hashFind regexp with
  | none => false
  | some msgSendDict =>
    match msgSendDict.clientList.find? (·.client = client) with
    | none => false
    | some client_itr => client_itr.id = id

def addOrChangeRegexp (compile : Compile Code) (s : State Code) (regexp : Text)
    (client : IvyClient) : Option (State Code) :=
  if s.messSndByRegexp.lists regexp client.client client.id then
    some (changeRegexp compile s regexp client)
  else addRegexp compile s regexp client

/-- The nodes with the id are deleted, each from the dictionary first; the flag is `removed`. -/
def delRegexpForOneClient (s : State Code) (client : IvyClient) (id : ℤ) : State Code × Bool :=
  match s.allClients.find client.client with
  | none => (s, false)
  | some client_itr =>
    let removed := client_itr.srcRegList.filter fun regxpSrc => regxpSrc.id = id
    let s := removed.foldl
      (fun s regxpSrc => delRegexpForOneClientFromDictionary s regxpSrc.str_regexp client) s
    ({ s with allClients := s.allClients.modify client.client fun clnt =>
      { clnt with srcRegList := clnt.srcRegList.filter fun regxpSrc => regxpSrc.id ≠ id } }, removed ≠ [])

/-- The loop of `delOneClient` over the ids in `srcRegList`. Deleting an id frees all its
nodes, so a next node with the same id is read after it was freed. -/
def delSources (client : IvyClient) : ℕ → State Code → List ℤ → Option (State Code)
  | _, s, [] => some s
  | 0, _, _ :: _ => none
  | fuel + 1, s, id :: rest =>
    if rest.head? = some id then none
    else delSources client fuel (delRegexpForOneClient s client id).1 (rest.filter (· ≠ id))

/-- The part of `delOneClient` on `allClients`. -/
def delClientNode (s : State Code) (client : ℕ) : Option (State Code) :=
  match s.allClients.find client with
  | none => some s
  | some client_itr =>
    let ids := client_itr.srcRegList.map GlobReg.id
    (delSources client_itr ids.length s ids).map fun s =>
      { s with allClients := s.allClients.remove client }

def delOneClient (s : State Code) (client : ℕ) : Option (State Code) :=
  (delClientNode s client).map fun s => regenerateRegPtrArrayCache
    { s with messSndByRegexp := delOneClientFromDictionary s.messSndByRegexp client }

end Ivy.Registry

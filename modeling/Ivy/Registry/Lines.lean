import Ivy.Protocol.Receive
import Ivy.Registry.Views

/-! The lines that `Receive` turns into registry updates, and the connections they come from. -/
namespace Ivy.Registry

inductive Line
  | addRegexp (id : ℤ) (regexp : Text)
  | delRegexp (id : ℤ) (arg : Text)
  | startRegexp (id : ℤ) (arg : Text)
  | endRegexp (id : ℤ) (arg : Text)
  deriving DecidableEq, Repr

def Line.id : Line → ℤ
  | .addRegexp id _ => id
  | .delRegexp id _ => id
  | .startRegexp id _ => id
  | .endRegexp id _ => id

/-- The branches of `Receive` that concern the registry. -/
def Line.ofRequest : Request → Option Line
  | .control .addRegexp id arg => some (.addRegexp id arg)
  | .control .delRegexp id arg => some (.delRegexp id arg)
  | .control .startRegexp id arg => some (.startRegexp id arg)
  | .control .endRegexp id arg => some (.endRegexp id arg)
  | _ => none

variable {Code : Type*}

def setId (s : State Code) (client : ℕ) (id : ℤ) : State Code :=
  { s with allClients := s.allClients.modify client fun clnt => { clnt with id := id } }

def setEndRegexpReceived (s : State Code) (client : ℕ) (received : Bool) : State Code :=
  { s with allClients := s.allClients.modify client fun clnt =>
      { clnt with endRegexpReceived := received } }

/-- The branch of `Receive` for `DelRegexp`. -/
def receiveDelRegexp (s : State Code) (clnt : IvyClient) (id : ℤ) (arg : Text) : State Code :=
  let r := delRegexpForOneClient s clnt id
  if r.2 then bindCallback r.1 clnt arg .removeBind else r.1

/-- `Receive` on a line of a connection, without a filter and without a second connection to
the same application. -/
def receiveLine (compile : Compile Code) (s : State Code) (client : ℕ) (line : Line) :
    Option (State Code) :=
  let s := setId s client line.id
  match s.allClients.find client with
  | none => none
  | some clnt =>
    match line with
    | .addRegexp _ regexp => addOrChangeRegexp compile s regexp clnt
    | .delRegexp id arg => some (receiveDelRegexp s clnt id arg)
    | .startRegexp _ _ => some (setEndRegexpReceived s client false)
    | .endRegexp _ _ => some (regenerateRegPtrArrayCache (setEndRegexpReceived s client true))

inductive Event
  | connect (client : ℕ)
  | line (client : ℕ) (line : Line)
  | disconnect (client : ℕ)
  deriving DecidableEq, Repr

/-- A new connection is one that `allClients` does not hold. -/
def step (compile : Compile Code) (s : State Code) : Event → Option (State Code)
  | .connect client =>
    match h : s.allClients.find client with
    | none => some { s with allClients := s.allClients.add client h }
    | some _ => none
  | .line client line => receiveLine compile s client line
  | .disconnect client => delOneClient s client

/-- Connections open once, and lines and disconnections come from open connections. -/
def Possible (s : State Code) : Event → Prop
  | .connect client => s.allClients.find client = none
  | .line client _ => s.allClients.find client ≠ none
  | .disconnect client => s.allClients.find client ≠ none

instance (s : State Code) : ∀ e, Decidable (Possible s e)
  | .connect _ => inferInstanceAs (Decidable (_ = none))
  | .line _ _ => inferInstanceAs (Decidable (_ ≠ none))
  | .disconnect _ => inferInstanceAs (Decidable (_ ≠ none))

section
variable {s : State Code} {compile : Compile Code} {c : ℕ}

theorem step_connect (h : s.allClients.find c = none) :
    step compile s (.connect c) = some { s with allClients := s.allClients.add c h } := by
  simp only [step]
  split
  · rfl
  · rename_i clnt hclnt
    simp [h] at hclnt

theorem find_setId (h : s.allClients.find c ≠ none) (id : ℤ) :
    ∃ clnt, (setId s c id).allClients.find c = some clnt ∧ clnt.client = c ∧ clnt.id = id := by
  obtain ⟨clnt, hclnt⟩ := Option.ne_none_iff_exists'.mp h
  exact ⟨_, s.allClients.find_modify_self c _ hclnt, rfl, rfl⟩

theorem srcs_setId (id : ℤ) (c' : ℕ) :
    (setId s c id).allClients.srcs c' = s.allClients.srcs c' := by
  apply Clients.srcs_modify_same
  exact fun _ => rfl

theorem status_setId (id : ℤ) (c' : ℕ) :
    (setId s c id).allClients.status c' = s.allClients.status c' := by
  apply Clients.status_modify
  exact fun _ => rfl

theorem receiveLine_addRegexp {clnt : IvyClient} {id : ℤ}
    (hfind : (setId s c id).allClients.find c = some clnt) (regexp : Text) :
    receiveLine compile s c (.addRegexp id regexp) =
      addOrChangeRegexp compile (setId s c id) regexp clnt := by
  simp only [receiveLine, Line.id, hfind]

theorem receiveLine_delRegexp {clnt : IvyClient} {id : ℤ}
    (hfind : (setId s c id).allClients.find c = some clnt) (arg : Text) :
    receiveLine compile s c (.delRegexp id arg) =
      some (receiveDelRegexp (setId s c id) clnt id arg) := by
  simp only [receiveLine, Line.id, hfind]

theorem receiveLine_change (compile : Compile Code) (h : s.allClients.find c ≠ none) {id : ℤ} {regexp : Text}
    (hlists : s.messSndByRegexp.lists regexp c id = true) :
    ∃ t, receiveLine compile s c (.addRegexp id regexp) = some t ∧ Becomes s t
      (fun r => if regexp = r then ⟨c, id⟩ :: (s.messSndByRegexp.subs r).filter (others c id)
        else s.messSndByRegexp.subs r)
      (fun c' => if c = c' then (s.allClients.srcs c').map (renameSource id regexp)
        else s.allClients.srcs c') := by
  obtain ⟨clnt, hfind, rfl, rfl⟩ := find_setId h id
  have hspec := changeRegexp_spec (setId s clnt.client clnt.id) compile regexp clnt (by simp [hfind])
  refine ⟨changeRegexp compile (setId s clnt.client clnt.id) regexp clnt, ?_, hspec.subs, ?_, ?_,
    hspec.occupied⟩
  · rw [receiveLine_addRegexp hfind]
    exact if_pos hlists
  · intro c'
    rw [hspec.srcs, srcs_setId]
  · exact fun c' => (hspec.status c').trans (status_setId _ _)

theorem receiveLine_add (compile : Compile Code) (h : s.allClients.find c ≠ none) {id : ℤ} {regexp : Text}
    (hlists : s.messSndByRegexp.lists regexp c id = false) :
    ∃ t, receiveLine compile s c (.addRegexp id regexp) = some t ∧ Becomes s t
      (fun r => if regexp = r then ⟨c, id⟩ :: s.messSndByRegexp.subs r
        else s.messSndByRegexp.subs r)
      (fun c' => if c = c' then ⟨regexp, id⟩ :: s.allClients.srcs c' else s.allClients.srcs c') := by
  obtain ⟨clnt, hfind, rfl, rfl⟩ := find_setId h id
  obtain ⟨t, ht, hspec⟩ := addRegexp_spec (setId s clnt.client clnt.id) compile regexp clnt
    (by simp [hfind])
  have hnot : ¬ (setId s clnt.client clnt.id).messSndByRegexp.lists regexp clnt.client clnt.id = true :=
    ne_true_of_eq_false hlists
  refine ⟨t, ?_, hspec.subs, ?_, ?_, hspec.occupied⟩
  · rw [receiveLine_addRegexp hfind, ← ht]
    exact if_neg hnot
  · intro c'
    rw [hspec.srcs, srcs_setId]
  · exact fun c' => (hspec.status c').trans (status_setId _ _)

theorem Becomes.receiveDelRegexp {clnt : IvyClient} {id : ℤ} {subs : Text → List Subscriber}
    {srcs : ℕ → List GlobReg} (h : Becomes s (delRegexpForOneClient s clnt id).1 subs srcs)
    (arg : Text) : Becomes s (receiveDelRegexp s clnt id arg) subs srcs := by
  simp only [Registry.receiveDelRegexp]
  split_ifs
  · exact ⟨h.subs, h.srcs, h.status, h.occupied⟩
  · exact h

theorem receiveLine_del (compile : Compile Code) (h : s.allClients.find c ≠ none) (id : ℤ) (arg : Text) :
    ∃ t, receiveLine compile s c (.delRegexp id arg) = some t ∧ Becomes s t
      (fun r => if ⟨r, id⟩ ∈ s.allClients.srcs c then (s.messSndByRegexp.subs r).filter (others c id)
        else s.messSndByRegexp.subs r)
      (fun c' => if c = c' then (s.allClients.srcs c').filter fun regxpSrc => regxpSrc.id ≠ id
        else s.allClients.srcs c') := by
  obtain ⟨clnt, hfind, rfl, rfl⟩ := find_setId h id
  have hspec := (delRegexpForOneClient_spec (setId s clnt.client clnt.id) clnt clnt.id
    (by simp [hfind])).receiveDelRegexp arg
  refine ⟨receiveDelRegexp (setId s clnt.client clnt.id) clnt clnt.id arg, ?_, fun r => ?_,
    fun c' => ?_, fun c' => ?_, hspec.occupied⟩
  · exact receiveLine_delRegexp hfind arg
  · rw [hspec.subs, srcs_setId]
    rfl
  · rw [hspec.srcs, srcs_setId]
  · rw [hspec.status, status_setId]

/-- Only the completion of one handshake differs. -/
structure Completes (c : ℕ) (received : Bool) (s t : State Code) : Prop where
  dictionary : t.messSndByRegexp = s.messSndByRegexp
  srcs : ∀ c', t.allClients.srcs c' = s.allClients.srcs c'
  status : ∀ c', t.allClients.status c' = if c = c' then some received else s.allClients.status c'

theorem Completes.regenerate {received : Bool} {t : State Code} (h : Completes c received s t) :
    Completes c received s (regenerateRegPtrArrayCache t) := ⟨h.dictionary, h.srcs, h.status⟩

theorem completes_setEndRegexpReceived (h : s.allClients.find c ≠ none) (id : ℤ) (received : Bool) :
    Completes c received s (setEndRegexpReceived (setId s c id) c received) := by
  obtain ⟨clnt, hfind, hclient, -⟩ := find_setId h id
  refine ⟨rfl, fun c' => ?_, fun c' => ?_⟩
  · refine Eq.trans ?_ (srcs_setId (c := c) id c')
    apply Clients.srcs_modify_same
    exact fun _ => rfl
  · split_ifs with hc'
    · subst hc'
      rw [Clients.status, setEndRegexpReceived, Clients.find_modify_self _ _ _ hfind]
      rfl
    · refine Eq.trans ?_ (status_setId (c := c) id c')
      rw [Clients.status, setEndRegexpReceived, Clients.find_modify_of_ne _ _ hc', Clients.status]

theorem receiveLine_start (compile : Compile Code) (h : s.allClients.find c ≠ none) (id : ℤ) (arg : Text) :
    ∃ t, receiveLine compile s c (.startRegexp id arg) = some t ∧ Completes c false s t ∧
      t.ompDictCache = s.ompDictCache := by
  obtain ⟨clnt, hfind, -⟩ := find_setId h id
  exact ⟨_, by simp only [receiveLine, Line.id, hfind], completes_setEndRegexpReceived h id false, rfl⟩

theorem receiveLine_end (compile : Compile Code) (h : s.allClients.find c ≠ none) (id : ℤ) (arg : Text) :
    ∃ t, receiveLine compile s c (.endRegexp id arg) = some (regenerateRegPtrArrayCache t) ∧
      Completes c true s t := by
  obtain ⟨clnt, hfind, -⟩ := find_setId h id
  exact ⟨_, by simp only [receiveLine, Line.id, hfind], completes_setEndRegexpReceived h id true⟩

end
end Ivy.Registry

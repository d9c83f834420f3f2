import Ivy.Bus.Starting
import Ivy.Lib.Announce
import Ivy.Lib.Simulation

/-! Of two agents that started on one bus, one connects to the other: on each network they are parties
that open before they announce themselves. -/
namespace Ivy.Bus
open Ivy.Agent Discovery Socket

variable {κ : Type*}

section Refinement

/-- What a step is to those that listen to one network. -/
def announceEvents (network : Network) (s : κ → Node κ) : MeshEvent κ → List (Announce.Event κ)
  | .listen _ | .read _ => []
  | .bind k => if network.isGroup then [] else [.opens k]
  | .request k =>
    match (s k).todo with
    | [] => []
    | .join n :: _ => if n = network then [.opens k] else []
    | .send n _ _ :: _ => if n = network then [.announces k] else []

def reaches (c : κ → Starter) (lan : Network → κ → κ → Bool) (network : Network) (i j : κ) : Bool :=
  (c j).supervisionPort == (c i).supervisionPort && lan network i j

/-- The agent is a party that announces itself on the network. -/
structure Follows (c : κ → Starter) (network : Network) (k : κ) (n : Node κ) (a : Announce κ) : Prop where
  opened : a.opened k = true ↔ n.Hears network
  announced : n.phase = .bound → (c k).Sends network →
    a.announced k = true ∨ ∃ r ∈ n.todo, r.network = some network
  heard : ∀ j ∈ a.heard k, ¬ Starter.SameStart (c j) (c k) →
    (c j).endpoint ∈ n.attempts ∨ ∃ p ∈ n.inbox, p.sender = j

variable {c : κ → Starter} {lan : Network → κ → κ → Bool} {network : Network} {s t : κ → Node κ} {a : Announce κ}

theorem follows_down (k : κ) : Follows c network k Node.down .start where
  opened := ⟨fun h => absurd h Bool.false_ne_true, fun h => absurd h.1 Phase.noConfusion⟩
  announced h := absurd h Phase.noConfusion
  heard _ h := absurd h List.not_mem_nil

theorem Follows.announced_tail {k : κ} {n : Node κ} (h : Follows c network k n a) {r : SocketRequest}
    {rs : List SocketRequest} (htodo : n.todo = r :: rs) (hr : r.network ≠ some network) (hbound : n.phase = .bound)
    (hsends : (c k).Sends network) : a.announced k = true ∨ ∃ r ∈ rs, r.network = some network := by
  refine (h.announced hbound hsends).imp_right fun ⟨r', hr', hnetwork⟩ => ?_
  rw [htodo] at hr'
  rcases List.mem_cons.mp hr' with rfl | hr'
  · exact absurd hnetwork hr
  · exact ⟨r', hr', hnetwork⟩

theorem Follows.elsewhere {k : κ} (h : Follows c network k (s k) a) (sender : κ) (network' : Network) (port : UInt16)
    (text : Text) : Follows c network k (deliver c lan sender network' port text s k) a := by
  rw [deliver_eq]
  refine ⟨h.opened, h.announced, fun j hj hsame => ?_⟩
  refine (h.heard j hj hsame).imp_right fun ⟨p, hp, hsender⟩ => ?_
  exact ⟨p, List.mem_append_left _ hp, hsender⟩

variable [DecidableEq κ]

theorem follows_update (h : ∀ k, Follows c network k (s k) a) {k : κ} {n : Node κ} (hn : Follows c network k n a)
    (j : κ) : Follows c network j (Function.update s k n j) a :=
  (Function.forall_update_iff s fun j n => Follows c network j n a).mpr ⟨hn, fun j _ => h j⟩ j

theorem follows_opens (h : ∀ k, Follows c network k (s k) a) {k : κ} {n : Node κ} (hopened : n.Hears network)
    (hannounced : n.phase = .bound → (c k).Sends network →
      a.announced k = true ∨ ∃ r ∈ n.todo, r.network = some network)
    (hinbox : n.inbox = (s k).inbox) (hattempts : n.attempts = (s k).attempts) (j : κ) :
    Follows c network j (Function.update s k n j) { a with opened := Function.update a.opened k true } := by
  by_cases hjk : j = k
  · subst hjk
    rw [Function.update_self]
    refine ⟨by simpa using hopened, hannounced, ?_⟩
    rw [hinbox, hattempts]
    exact (h j).heard
  · rw [Function.update_of_ne hjk]
    refine ⟨?_, (h j).announced, (h j).heard⟩
    dsimp only
    rw [Function.update_of_ne hjk]
    exact (h j).opened

theorem follows_announces (h : ∀ k, Follows c network k (s k) a) {k : κ} {n : Node κ} (hk : a.opened k = true)
    (hopened : n.Hears network) (hinbox : n.inbox = (s k).inbox) (hattempts : n.attempts = (s k).attempts)
    (text : Text) (j : κ) :
    Follows c network j
      (deliver c lan k network (c k).supervisionPort text (Function.update s k n) j)
      { a with
        announced := Function.update a.announced k true
        heard := fun j => if a.opened j && reaches c lan network k j then a.heard j ++ [k] else a.heard j } := by
  -- but for what is left to ask for, the sender is as it was
  have hsame : (a.opened j = true ↔ (Function.update s k n j).Hears network) ∧
      (Function.update s k n j).inbox = (s j).inbox ∧ (Function.update s k n j).attempts = (s j).attempts := by
    by_cases hjk : j = k
    · subst hjk
      rw [Function.update_self]
      exact ⟨iff_of_true hk hopened, hinbox, hattempts⟩
    · rw [Function.update_of_ne hjk]
      exact ⟨(h j).opened, rfl, rfl⟩
  obtain ⟨hhears, hinbox', hattempts'⟩ := hsame
  have hreach : (a.opened j && reaches c lan network k j) = true ↔ (Function.update s k n j).Hears network ∧
      (c j).supervisionPort = (c k).supervisionPort ∧ lan network k j = true := by
    rw [Bool.and_eq_true, hhears]
    simp [reaches]
  rw [deliver_eq]
  refine ⟨hhears, fun hbound hsends => ?_, fun i hi hdiffer => ?_⟩
  · by_cases hjk : j = k
    · exact Or.inl (by simp [hjk])
    · dsimp only at hbound ⊢
      rw [Function.update_of_ne hjk] at hbound ⊢
      rw [Function.update_of_ne hjk]
      exact (h j).announced hbound hsends
  · dsimp only at hi ⊢
    simp only [hreach] at hi
    rw [hinbox', hattempts']
    split_ifs at hi ⊢
    · rcases List.mem_append.mp hi with hi | hi
      · refine ((h j).heard i hi hdiffer).imp_right fun ⟨p, hp, hp'⟩ => ?_
        exact ⟨p, List.mem_append_left _ hp, hp'⟩
      · refine Or.inr ⟨⟨k, text⟩, List.mem_append_right _ (List.mem_singleton_self _), ?_⟩
        exact (List.mem_singleton.mp hi).symm
    · rw [List.append_nil]
      exact (h j).heard i hi hdiffer

/-- A step of the agents is what their parties do. -/
theorem follows_step (hc : ∀ k, (c k).Announceable) (hsane : Sane c s) (h : ∀ k, Follows c network k (s k) a)
    {e : MeshEvent κ} (hstep : Steps c lan s e t) :
    ∃ b, Machine.run (Announce.step (reaches c lan network)) a (announceEvents network s e) = some b ∧
      ∀ k, Follows c network k (t k) b := by
  cases hstep with
  | @listen k hphase =>
    have hsilent : ¬ (s k).Hears network := fun hhears => Phase.noConfusion (hphase.symm.trans hhears.1)
    refine ⟨a, rfl, follows_update h ⟨?_, fun hbound => Phase.noConfusion hbound, (h k).heard⟩⟩
    exact (h k).opened.trans (iff_of_false hsilent fun hhears => Phase.noConfusion hhears.1)
  | @bind k actions hphase hactions =>
    have hnot : (s k).phase ≠ .bound := by simp [hphase]
    have hannounced (hsends : (c k).Sends network) : ∃ r ∈ actions.map Discovery.Action.request, r.network = some network := by
      obtain ⟨actions', hactions', action, haction, hnetwork⟩ := hsends
      obtain rfl := Option.some.inj (hactions.symm.trans hactions')
      exact ⟨_, List.mem_map_of_mem haction, hnetwork⟩
    unfold announceEvents
    cases hgroup : network.isGroup with
    | true =>
      have hempty := ((hsane.own k).fresh hnot).2
      have hsilent : ¬ (s k).Hears network := fun hhears => hnot hhears.1
      refine ⟨a, rfl, follows_update h ⟨?_, fun _ hsends => Or.inr (hannounced hsends), (h k).heard⟩⟩
      refine (h k).opened.trans (iff_of_false hsilent fun hhears => ?_)
      have hjoined := hhears.2 hgroup
      dsimp only at hjoined
      rw [hempty] at hjoined
      exact List.not_mem_nil hjoined
    | false =>
      refine ⟨_, rfl, follows_opens h ⟨rfl, fun hjoin => ?_⟩ (fun _ hsends => Or.inr (hannounced hsends)) rfl rfl⟩
      exact absurd (hgroup.symm.trans hjoin) Bool.false_ne_true
  | @join k n rs htodo =>
    have hbound := (hsane.own k).bound (by simp [htodo])
    have hannounced (hb : (s k).phase = .bound) (hsends : (c k).Sends network) :=
      (h k).announced_tail htodo (by simp [SocketRequest.network]) hb hsends
    unfold announceEvents
    dsimp only
    rw [htodo]
    by_cases hn : n = network
    · subst hn
      dsimp only
      rw [if_pos rfl]
      exact ⟨_, rfl, follows_opens h ⟨hbound, fun _ => List.mem_cons_self⟩ hannounced rfl rfl⟩
    · dsimp only
      rw [if_neg hn]
      refine ⟨a, rfl, follows_update h ⟨(h k).opened.trans ?_, hannounced, (h k).heard⟩⟩
      unfold Node.Hears
      dsimp only
      rw [List.mem_cons, or_iff_right fun heq : network = n => hn heq.symm]
  | @send k n port text rs htodo =>
    obtain ⟨hhears, rfl, -⟩ := (hsane.own k).send htodo
    unfold announceEvents
    dsimp only
    rw [htodo]
    by_cases hn : n = network
    · subst hn
      have hopened := (h k).opened.mpr hhears
      dsimp only
      rw [if_pos rfl]
      exact ⟨_, Announce.run_announces hopened, follows_announces h (n := { s k with todo := rs }) hopened hhears rfl rfl text⟩
    · dsimp only
      rw [if_neg hn]
      have hother : (SocketRequest.send n (c k).supervisionPort text).network ≠ some network := by
        simpa [SocketRequest.network] using hn
      have hrest := follows_update h (n := { s k with todo := rs })
        ⟨(h k).opened, (h k).announced_tail htodo hother, (h k).heard⟩
      exact ⟨a, rfl, fun j => (hrest j).elsewhere _ _ _ _⟩
  | @read k sender text rest hphase htodo hinbox =>
    obtain ⟨htext, -⟩ := (hsane.heard k).inbox ⟨sender, text⟩ (hinbox ▸ List.mem_cons_self)
    obtain rfl : text = (c sender).app.hello := htext
    obtain ⟨-, hattempts⟩ := Node.read_hello (hsane.own k).quiet (hc sender) (c k).app.applicationID rest
    refine ⟨a, rfl, follows_update h ⟨(h k).opened, (h k).announced, fun j hj hdiffer => ?_⟩⟩
    rw [hattempts]
    rcases (h k).heard j hj hdiffer with hattempted | ⟨p, hp, rfl⟩
    · exact Or.inl (List.mem_append_left _ hattempted)
    · rw [hinbox] at hp
      rcases List.mem_cons.mp hp with rfl | hp
      · rw [if_neg fun hid => hdiffer (Starter.sameStart_iff.mp hid)]
        exact Or.inl (List.mem_append_right _ (List.mem_singleton_self _))
      · exact Or.inr ⟨p, hp, rfl⟩

end Refinement

section Results
variable [DecidableEq κ] {c : κ → Starter} {lan : Network → κ → κ → Bool} {es : List (MeshEvent κ)} {s : κ → Node κ}

theorem sane_of_run (hc : ∀ k, (c k).Announceable)
    (hrun : Machine.run (meshStep c lan) (fun _ => Node.down) es = some s) : Sane c s :=
  Machine.run_reaches (I := fun _ => Sane c) sane_down
    (fun _ _ _ _ h ht => h.step hc (steps_of_meshStep ht)) hrun

/-- The agents that start are parties that announce themselves, on every network. -/
theorem follows_of_run (hc : ∀ k, (c k).Announceable)
    (hrun : Machine.run (meshStep c lan) (fun _ => Node.down) es = some s) (network : Network) :
    ∃ a, Machine.run (Announce.step (reaches c lan network)) .start
        (Machine.labels (meshStep c lan) (announceEvents network) (fun _ => Node.down) es) = some a ∧
      ∀ k, Follows c network k (s k) a := by
  let R (s : κ → Node κ) (a : Announce κ) : Prop := Sane c s ∧ ∀ k, Follows c network k (s k) a
  obtain ⟨a, ha, -, hfollows⟩ := Machine.follows (announceEvents network) (R := R)
    ⟨sane_down, follows_down⟩ (fun s t u e hR ht => by
      have hstep := steps_of_meshStep ht
      obtain ⟨v, hv, hfollows⟩ := follows_step hc hR.1 hR.2 hstep
      exact ⟨v, hv, hR.1.step hc hstep, hfollows⟩) hrun
  exact ⟨a, ha, hfollows⟩

/-- Of two settled agents on one bus one attempts to connect to the other, if they did not start alike. -/
theorem settled_attempt (hc : ∀ k, (c k).Announceable)
    (hrun : Machine.run (meshStep c lan) (fun _ => Node.down) es = some s) {i j : κ} (hi : (s i).Settled)
    (hj : (s j).Settled) (hbus : Neighbours c lan i j) (hdiffer : ¬ Starter.SameStart (c i) (c j)) :
    (c j).endpoint ∈ (s i).attempts ∨ (c i).endpoint ∈ (s j).attempts := by
  obtain ⟨network, hsends, hsends', hlan, hlan'⟩ := hbus.network
  obtain ⟨a, ha, hfollows⟩ := follows_of_run hc hrun network
  have hannounced (k : κ) (hk : (s k).Settled) (hsends : (c k).Sends network) : a.announced k = true := by
    refine ((hfollows k).announced hk.phase hsends).resolve_right fun ⟨r, hr, _⟩ => ?_
    rw [hk.todo] at hr
    exact List.not_mem_nil hr
  have hattempted (k l : κ) (hk : (s k).Settled) (hl : l ∈ a.heard k) (hkl : ¬ Starter.SameStart (c l) (c k)) :
      (c l).endpoint ∈ (s k).attempts := by
    refine ((hfollows k).heard l hl hkl).resolve_right fun ⟨p, hp, _⟩ => ?_
    rw [hk.inbox] at hp
    exact List.not_mem_nil hp
  have hreach : reaches c lan network i j = true := by simp [reaches, hbus.port, hlan]
  have hreach' : reaches c lan network j i = true := by simp [reaches, hbus.port, hlan']
  rcases Announce.either_hears ha hreach hreach' (hannounced i hi hsends) (hannounced j hj hsends') with hheard | hheard
  · exact Or.inr (hattempted j i hj hheard hdiffer)
  · have hdiffer' : ¬ Starter.SameStart (c j) (c i) := fun h =>
      hdiffer (Starter.sameStart_iff.mp (Starter.sameStart_iff.mpr h).symm)
    exact Or.inl (hattempted i j hi hheard hdiffer')

/-- Every attempt goes to an agent that is on the bus and did not start alike. Of two settled agents one
attempts to connect to the other exactly if they did not start alike. -/
theorem mesh (hc : ∀ k, (c k).Announceable) (hports : Function.Injective fun k => (c k).endpoint)
    (hrun : Machine.run (meshStep c lan) (fun _ => Node.down) es = some s) :
    (∀ k, ∀ e ∈ (s k).attempts, ∃ j, e = (c j).endpoint ∧ ¬ Starter.SameStart (c j) (c k) ∧ (s j).phase = .bound) ∧
    ∀ i j, (s i).Settled → (s j).Settled → Neighbours c lan i j →
      (((c j).endpoint ∈ (s i).attempts ∨ (c i).endpoint ∈ (s j).attempts) ↔
        ¬ Starter.SameStart (c i) (c j)) := by
  have hsane := sane_of_run hc hrun
  have hattempts (k j : κ) (h : (c j).endpoint ∈ (s k).attempts) :
      ¬ (c j).app.applicationID = (c k).app.applicationID := by
    obtain ⟨l, heq, hdiffer, -⟩ := (hsane.heard k).attempts _ h
    obtain rfl := hports heq
    exact fun hid => hdiffer (Starter.sameStart_iff.mp hid)
  refine ⟨fun k => (hsane.heard k).attempts, fun i j hi hj hbus => ⟨fun h hsame => ?_, settled_attempt hc hrun hi hj hbus⟩⟩
  have hid := Starter.sameStart_iff.mpr hsame
  rcases h with h | h
  · exact hattempts i j h hid.symm
  · exact hattempts j i h hid

end Results

/-- Two agents of two hosts, with the default bus. -/
def pair (k : Bool) : Starter where
  host := if k then 2 else 1
  applicationPort := 5000
  rand _ := 7
  curtime := if k then 11 else 10
  applicationName := if k then ⟨ascii "b", by decide⟩ else ⟨ascii "a", by decide⟩
  inet_pton _ := none
  uninit := none
  getenv := none
  bus := none

/-- Both are bound before one of them says hello. -/
def bothAtOnce : List (MeshEvent Bool) :=
  [.listen false, .listen true, .bind false, .bind true, .request false, .request true,
    .read true, .read true, .read false, .read false]

theorem pair_announceable (k : Bool) : (pair k).Announceable where
  port_ne_zero := by cases k <;> decide
  name_field := by cases k <;> exact ⟨by decide, by decide, by decide +kernel⟩
  name_first := by cases k <;> rfl

theorem pair_sends (k : Bool) : (pair k).Sends (.ipv4 0x7fffffff) := by
  refine ⟨[.socketSendBroadcast 0x7fffffff 2010 (pair k).app.hello], ?_, _, List.mem_singleton_self _, rfl⟩
  cases k <;> decide +kernel

theorem mesh_example : ∃ s, Machine.run (meshStep pair fun _ _ _ => true) (fun _ => Node.down) bothAtOnce = some s ∧
    ((pair true).endpoint ∈ (s false).attempts ∨ (pair false).endpoint ∈ (s true).attempts) := by
  have hsettled : (Machine.run (meshStep pair fun _ _ _ => true) (fun _ => Node.down) bothAtOnce).any
      (fun s => decide ((s false).Settled ∧ (s true).Settled)) = true := by decide +kernel
  obtain ⟨s, hrun, h⟩ := (Option.any_eq_true _ _).mp hsettled
  have hboth := of_decide_eq_true h
  have hports : Function.Injective fun k => (pair k).endpoint := by
    intro i j h
    cases i <;> cases j <;> first | rfl | exact absurd h (by decide)
  have hbus : Neighbours pair (fun _ _ _ => true) false true :=
    ⟨rfl, _, pair_sends false, pair_sends true, rfl, rfl⟩
  have hdiffer : ¬ Starter.SameStart (pair false) (pair true) := fun h => absurd h.1 (by decide)
  exact ⟨s, hrun, ((mesh pair_announceable hports hrun).2 false true hboth.1 hboth.2 hbus).mpr hdiffer⟩

end Ivy.Bus

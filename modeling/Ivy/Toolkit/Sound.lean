import Ivy.Agent.Connecting
import Ivy.Toolkit.Immediate

/-! The sockets of the agent over a main loop that deletes at once. -/
namespace Ivy.Toolkit
open Socket hiding socketClose handleSocket
open Registry Ivy.Agent

variable {Code User : Type*}

/-- A main loop without channels. -/
def channelless (brk : ℕ) : Loop.Channels Unit := ⟨[], brk, ∅, ∅, 0, true, by simp, by simp⟩

/-- The agent as it is to the handlers of the other main loop. -/
def Watched.alone (w : Watched Code User) : World Code User := ⟨channelless w.brk, w.user⟩

/-- The log tells which sockets are there, and only clients wait for a write. -/
structure Sound (w : Watched Code User) (c : ℕ) : Prop where
  accounted : Accounted w.alone c
  freed : w.user.Ended c → w.user.Freed c
  unused : w.brk ≤ c → w.sources c = ⟨false, false, false⟩
  congested : (w.sources c).write = true → w.user.memory c ≠ none → w.user.sock c ≠ none

section Invariant
variable {a : Setup Code User} {c : ℕ} {w w' : Watched Code User}

theorem Sound.served (h : Sound w c) (hsock : w.user.sock c ≠ none) : w.user.Served c := by
  apply h.accounted.served hsock
  intro hended
  refine h.accounted.alive (fun hnone => ?_) (h.freed hended)
  have hnone : w.user.memory c = none := hnone
  exact hsock (by rw [Data.sock, hnone])

theorem Sound.sock (h : Sound w c) (hlinked : w.user.Linked c) : w.user.sock c ≠ none := by
  intro hnone
  have hdata := (h.accounted.linked hlinked).1
  change (w.user.sock c).any (·.data) = true at hdata
  simp [hnone] at hdata

theorem Sound.alive (h : Sound w c) (hlt : c < w.brk) : w.user.memory c ≠ none ↔ ¬ w.user.Freed c :=
  alive_iff h.accounted hlt

theorem Sound.walks (h : Sound w c) (hsock : w.user.sock c = none) : Walks w.user c :=
  walks_of_unlinked fun hlinked => h.sock hlinked hsock

/-- A channel with a source is not an unused one. -/
theorem Sound.lt_brk (h : Sound w c) {e : Sources → Bool} (he : e ⟨false, false, false⟩ = false)
    (hfires : e (w.sources c) = true) : c < w.brk := by
  by_contra hle
  rw [h.unused (Nat.le_of_not_lt hle), he] at hfires
  exact absurd hfires (by simp)

/-- What a step adds to the log keeps those that have ended freed. -/
theorem Sound.freed_append (h : Sound w c) {extra : List (Entry Code)}
    (hlog : w'.user.log = w.user.log ++ extra)
    (hextra : extra.any (·.ends c) = true → extra.any (·.frees c) = true) (hended : w'.user.Ended c) :
    w'.user.Freed c := by
  rw [Agent.freed_append hlog]
  exact ((ended_append hlog c).mp hended).imp h.freed hextra

theorem not_ends_of_plain {extra : List (Entry Code)} (hplain : ∀ e ∈ extra, e.plain = true) :
    ¬ extra.any (·.ends c) = true := by
  rw [Bool.not_eq_true, List.any_eq_false]
  intro e he
  rw [Entry.ends_of_plain (hplain e he)]
  exact Bool.false_ne_true

theorem alike_trans {u v v' : World Code User} (h : Alike u v c) (h' : Alike v v' c) : Alike u v' c where
  sock := h'.sock.trans h.sock
  memory := h'.memory.trans h.memory
  linked := h'.linked.trans h.linked
  ended := h'.ended.trans h.ended
  freed := h'.freed.trans h.freed
  brk := h'.brk.trans h.brk

/-- A step that leaves the connection alone, and at most has it wait for a write. -/
theorem Sound.of_alike (h : Sound w c) (halike : Alike w.alone w'.alone c)
    (hunused : w.brk ≤ c → w'.sources c = w.sources c)
    (hwrite : (w'.sources c).write = true → (w.sources c).write = true ∨ w.user.sock c ≠ none) :
    Sound w' c := by
  have hsock : w'.user.sock c = w.user.sock c := halike.sock
  have hmemory : w'.user.memory c = none ↔ w.user.memory c = none := halike.memory
  have hbrk : c < w'.brk ↔ c < w.brk := halike.brk
  refine ⟨h.accounted.of_alike halike, fun hended => ?_, fun hle => ?_, fun hw halive => ?_⟩
  · exact halike.freed.mpr (h.freed (halike.ended.mp hended))
  · have hle : w.brk ≤ c := Nat.le_of_not_lt fun hlt => Nat.not_lt_of_le hle (hbrk.mpr hlt)
    rw [hunused hle]
    exact h.unused hle
  · rw [hsock]
    exact (hwrite hw).elim (fun hold => h.congested hold fun hnone => halive (hmemory.mpr hnone)) id

theorem sound_core (h : ∀ c, Sound w c) (hcore : SameCore w.alone w'.alone)
    (hsources : w'.sources = w.sources) (c : ℕ) : Sound w' c := by
  apply (h c).of_alike (alike_core hcore)
  · exact fun _ => by rw [hsources]
  · exact fun hwrite => .inl (hsources ▸ hwrite)

/-- The condition on the write source of a channel that is not touched. -/
theorem Sound.congested_of (h : Sound w c) (hmemory : w'.user.memory c = w.user.memory c)
    (hsame : (w'.sources c).write = (w.sources c).write) (hwrite : (w'.sources c).write = true)
    (halive : w'.user.memory c ≠ none) : w'.user.sock c ≠ none := by
  rw [sock_of_memory hmemory]
  exact h.congested (hsame ▸ hwrite) (hmemory ▸ halive)

theorem accounted_alone {v : World Code User} (h : Accounted v c) (huser : w.user = v.user)
    (hbrk : w.brk = v.channels.brk) : Accounted w.alone c := by
  obtain ⟨brk, sources, user⟩ := w
  obtain rfl : user = v.user := huser
  exact h.of_alike (alike_core (sameCore_channels (channelless brk) hbrk))

def watching (w : Watched Code User) : ℕ → Sources := Function.update w.sources w.brk ⟨true, true, false⟩

theorem sound_connects {addresses : Addresses} {v : World Code User} (h : ∀ c, Sound w c)
    (hconn : Connects addresses w.alone v) (huser : w'.user = v.user) (hbrk : w'.brk = w.brk + 1)
    (hsources : w'.sources = watching w) (c : ℕ) : Sound w' c := by
  obtain ⟨extra, hlog, hplain⟩ := hconn.log
  rw [← huser] at hlog
  have hmemory : w'.user.memory = Function.update w.user.memory w.brk (some (.client ⟨addresses, true⟩)) := by
    rw [huser]
    exact hconn.memory
  have haccounted := accounted_connects (fun c => (h c).accounted) hconn c
  refine ⟨accounted_alone haccounted huser (hbrk.trans hconn.brk.symm),
    (h c).freed_append hlog fun hends => absurd hends (not_ends_of_plain hplain), fun hle => ?_,
    fun hwrite halive => ?_⟩
  · rw [hsources, watching, Function.update_of_ne (by omega)]
    exact (h c).unused (by omega)
  · by_cases hc : c = w.brk
    · simp [hsources, watching, hc] at hwrite
    · refine (h c).congested_of ?_ ?_ hwrite halive
      · rw [hmemory, Function.update_of_ne hc]
      · rw [hsources, watching, Function.update_of_ne hc]

theorem sound_deletes {c' : ℕ} (h : ∀ c, Sound w c) (hdel : Deletes c' w.alone w'.alone)
    (hwrite : ∀ c, (w'.sources c).write = (w.sources c).write)
    (hunused : ∀ c, w.sources c = ⟨false, false, false⟩ → w'.sources c = ⟨false, false, false⟩) (c : ℕ) :
    Sound w' c := by
  have hlog := hdel.log
  rw [List.append_assoc] at hlog
  have hbrk : w'.brk = w.brk := congrArg Loop.Channels.brk hdel.channels
  have hmemory : w'.user.memory = Function.update w.user.memory c' none := hdel.memory
  refine ⟨accounted_deletes (fun c => (h c).accounted) hdel c, (h c).freed_append hlog ?_, fun hle => ?_,
    fun hw halive => ?_⟩
  · cases w.alone.user.sock c' <;> simp [Entry.ends, Entry.frees]
  · exact hunused c ((h c).unused (hbrk ▸ hle))
  · have hc : c ≠ c' := by
      rintro rfl
      simp [hmemory] at halive
    exact (h c).congested_of (by rw [hmemory, Function.update_of_ne hc]) (hwrite c) hw halive

theorem sound_remove {c' : ℕ} (h : ∀ c, Sound w c) (hw : (toolkit a).ivyChannelRemove c' w = some w')
    (c : ℕ) : Sound w' c := by
  obtain ⟨d, hd, rfl⟩ := Option.map_eq_some_iff.mp hw
  apply sound_deletes h (deletes_of_deleteSocket hd (channelless w.brk))
  · intro c
    by_cases hc : c = c' <;> simp [hc]
  · intro c hnone
    by_cases hc : c = c'
    · subst hc
      simp [hnone]
    · simpa [hc] using hnone

/-- `ClientCreate` of a second connection, in the state that `HandleServer` calls it in. -/
theorem sound_rejects {fd : ℕ} {addresses : Addresses} (h : ∀ c, Sound w c)
    (hw : (toolkit a).ivyChannelRemove w.brk ((toolkit a).modify (·.record (.rejected w.brk))
      ((toolkit a).newClient fd addresses w).2) = some w') (c : ℕ) : Sound w' c := by
  obtain ⟨d, hd, hw'⟩ := Option.map_eq_some_iff.mp hw
  have huser : w'.user = d := by rw [← hw']
  have hbrk : w'.brk = w.brk + 1 := by rw [← hw']; rfl
  have hsources : w'.sources = Function.update w.sources w.brk ⟨false, false, false⟩ := by
    rw [← hw']
    refine (Function.update_idem _ _ _).trans ?_
    simp [toolkit, MainLoop.newClient, MainLoop.modify]
  let v : World Code User := { Agent.newClient fd addresses w.alone with
    user := (Agent.newClient fd addresses w.alone).user.record (.rejected w.brk) }
  have hreject : Rejects addresses w.alone (Agent.socketClose w.brk v) := ⟨rfl, rfl, rfl, ⟨fd, rfl⟩, rfl⟩
  have hdel := deletes_of_deleteSocket (d := v.user) hd (Agent.socketClose w.brk v).channels
  have hrejected (c : ℕ) := accounted_rejects (fun c => (h c).accounted) hreject c
  have hlog : w'.user.log = w.user.log ++ ([.rejected w.brk] ++ ((v.user.sock w.brk).elim [] (fun sock =>
      [.applicationCallback w.brk (if sock.data then some w.brk else none) .ivyApplicationDisconnected]) ++
        [.deleteSocket w.brk])) := by
    rw [← List.append_assoc, ← List.append_assoc, huser]
    exact hdel.log
  have hmemory : w'.user.memory = Function.update w.user.memory w.brk none := by
    rw [huser]
    exact Eq.trans hdel.memory (Function.update_idem _ _ _)
  refine ⟨accounted_alone (accounted_deletes hrejected hdel c) huser hbrk, (h c).freed_append hlog ?_,
    fun hle => ?_, fun hwrite halive => ?_⟩
  · cases v.user.sock w.brk <;> simp [Entry.ends, Entry.frees]
  · rw [hsources, Function.update_of_ne (by omega)]
    exact (h c).unused (by omega)
  · have hc : c ≠ w.brk := by
      rintro rfl
      simp [hmemory] at halive
    refine (h c).congested_of ?_ ?_ hwrite halive
    · rw [hmemory, Function.update_of_ne hc]
    · rw [hsources, Function.update_of_ne hc]

end Invariant

end Ivy.Toolkit

import Ivy.Loop.MainLoop

/-! A channel is deleted once and never served again, as long as `select` reports no exceptional
condition on it. -/
namespace Ivy.Loop

variable {Data User Env : Type*}

/-- The handlers only add channels, remove them and change their writable events. -/
structure Program.WellBehaved (p : Program Data User Env) : Prop where
  handleDelete : ∀ env ch w w', p.handleDelete env ch w = some w' → Acts w.channels w'.channels
  handleRead : ∀ env ch w w', p.handleRead env ch w = some w' → Acts w.channels w'.channels
  handleWrite : ∀ env ch w w', p.handleWrite env ch w = some w' → Acts w.channels w'.channels
  hook : ∀ env w w', p.hook env w = some w' → Acts w.channels w'.channels

/-- The call is made with the channel's data, or passes its descriptor on its behalf. -/
def Call.Concerns (c : ℕ) : Call → Prop
  | .handleDelete channel => channel = c
  | .handleRead channel => channel = c
  | .handleWrite channel => channel = c
  | .select fds channels => ∃ fd ∈ fds, (c, fd) ∈ channels

/-- After `handle_delete` there is no call for the channel, and every descriptor that is passed
to `select` is that of a channel in the list. -/
structure LifeCycle (calls : List Call) : Prop where
  silent : calls.Pairwise fun earlier later => ∀ c, earlier = .handleDelete c → ¬ later.Concerns c
  once : ∀ c, calls.count (.handleDelete c) ≤ 1
  onBehalf : ∀ fds channels, .select fds channels ∈ calls → ∀ fd ∈ fds, ∃ c, (c, fd) ∈ channels

/-- The channel that the pass over the exceptional set comes to. -/
def Pc.excepted : Pc → Option (ℕ × FdSets)
  | .ivyChannelHandleExcpt (c :: _) sets => some (c, sets)
  | _ => none

/-- The pass over the exceptional set finds no channel with a `handle_delete` in it. -/
def NoException (s : State Data User) : Event Env → Prop
  | .next _ => ∀ v ∈ s.pc.excepted, ∀ ch ∈ s.world.channels.find v.1,
      ch.fd ∈ v.2.exset → ch.handle_delete = false
  | _ => True

instance (s : State Data User) : ∀ e : Event Env, Decidable (NoException s e)
  | .next _ => inferInstanceAs (Decidable (∀ v ∈ _, _))
  | .enter _ | .hook _ | .select _ => inferInstanceAs (Decidable True)

namespace Channels
variable {l l' : Channels Data}

theorem find_eq_some {c : ℕ} {ch : Channel Data} :
    l.find c = some ch ↔ ch ∈ l.channels_list ∧ ch.id = c := Keyed.find_eq_some l.nodup

theorem mem_ids {c : ℕ} : c ∈ l.ids ↔ ∃ ch, l.find c = some ch := by
  simp [ids, find_eq_some]

theorem ids_lt {c : ℕ} (h : c ∈ l.ids) : c < l.brk := by
  obtain ⟨ch, hch, rfl⟩ := List.mem_map.mp h
  exact l.below ch hch

@[simp] theorem ids_ivyChannelAdd (fd : ℕ) (data : Data) (handle_delete : Bool) :
    (l.ivyChannelAdd fd data handle_delete).ids = l.brk :: l.ids := rfl

@[simp] theorem ids_ivyChannelRemove (c : ℕ) : (l.ivyChannelRemove c).ids = l.ids := by
  have hcomp : (fun ch : Channel Data => ch.id) ∘ mark c = fun ch => ch.id := funext (id_mark c)
  rw [ids, ivyChannelRemove, List.map_map, hcomp, ids]

theorem mem_ids_unlink {c fd c' : ℕ} : c' ∈ (l.unlink c fd).ids ↔ c' ∈ l.ids ∧ c' ≠ c := by
  simp only [ids, unlink, List.mem_map, List.mem_filter, decide_eq_true_eq]
  constructor
  · rintro ⟨ch, ⟨hch, hne⟩, rfl⟩
    exact ⟨⟨ch, hch, rfl⟩, hne⟩
  · rintro ⟨⟨ch, hch, rfl⟩, hne⟩
    exact ⟨ch, ⟨hch, hne⟩, rfl⟩

/-- Each descriptor in the sets is that of a channel. -/
def Owned (l : Channels Data) : Prop :=
  ∀ fd ∈ l.open_fds ∪ l.wrdy_fds, ∃ ch ∈ l.channels_list, ch.fd = fd

/-- The old channels stay, with their descriptors, and the new ones are fresh. -/
structure Grown (l l' : Channels Data) : Prop where
  brk : l.brk ≤ l'.brk
  fresh : ∀ c ∈ l'.ids, c ∈ l.ids ∨ l.brk ≤ c
  stays : ∀ ch ∈ l.channels_list, ∃ ch' ∈ l'.channels_list, ch'.id = ch.id ∧ ch'.fd = ch.fd

theorem Grown.ids (h : Grown l l') {c : ℕ} (hc : c ∈ l.ids) : c ∈ l'.ids := by
  obtain ⟨ch, hch, rfl⟩ := List.mem_map.mp hc
  obtain ⟨ch', hch', hid, -⟩ := h.stays ch hch
  exact List.mem_map.mpr ⟨ch', hch', hid⟩

theorem ivyChannelAddWritableEvent_same (c : ℕ) :
    (l.ivyChannelAddWritableEvent c).channels_list = l.channels_list ∧
      (l.ivyChannelAddWritableEvent c).brk = l.brk := by
  unfold ivyChannelAddWritableEvent
  split <;> exact ⟨rfl, rfl⟩

theorem ivyChannelClearWritableEvent_same (c : ℕ) :
    (l.ivyChannelClearWritableEvent c).channels_list = l.channels_list ∧
      (l.ivyChannelClearWritableEvent c).brk = l.brk := by
  unfold ivyChannelClearWritableEvent
  split <;> exact ⟨rfl, rfl⟩

theorem Grown.of_same {l'' : Channels Data} (h : Grown l l')
    (hsame : l''.channels_list = l'.channels_list ∧ l''.brk = l'.brk) : Grown l l'' := by
  obtain ⟨hlist, hbrk⟩ := hsame
  refine ⟨hbrk ▸ h.brk, fun c hc => h.fresh c ?_, fun ch hch => ?_⟩
  · rwa [Channels.ids, hlist] at hc
  · rw [hlist]
    exact h.stays ch hch

theorem Owned.of_subset (h : Owned l) (hlist : l'.channels_list = l.channels_list)
    (hsub : l'.open_fds ∪ l'.wrdy_fds ⊆ l.open_fds ∪ l.wrdy_fds) : Owned l' := by
  intro fd hfd
  rw [hlist]
  exact h fd (hsub hfd)

theorem Owned.add (h : Owned l) (fd : ℕ) (data : Data) (handle_delete : Bool) :
    Owned (l.ivyChannelAdd fd data handle_delete) := by
  intro fd' hfd'
  simp only [ivyChannelAdd, Finset.mem_union, Finset.mem_insert, or_assoc] at hfd'
  rcases hfd' with rfl | hfd'
  · exact ⟨_, List.mem_cons_self, rfl⟩
  · obtain ⟨ch, hch, heq⟩ := h fd' (Finset.mem_union.mpr hfd')
    exact ⟨ch, List.mem_cons_of_mem _ hch, heq⟩

theorem Owned.remove (h : Owned l) (c : ℕ) : Owned (l.ivyChannelRemove c) := by
  intro fd hfd
  obtain ⟨ch, hch, rfl⟩ := h fd hfd
  exact ⟨mark c ch, List.mem_map.mpr ⟨ch, hch, rfl⟩, fd_mark c ch⟩

theorem Owned.addWritable (h : Owned l) (c : ℕ) : Owned (l.ivyChannelAddWritableEvent c) := by
  unfold ivyChannelAddWritableEvent
  split
  · exact h
  · rename_i ch hch
    intro fd hfd
    simp only [Finset.mem_union, Finset.mem_insert] at hfd
    rcases hfd with hfd | rfl | hfd
    · exact h fd (Finset.mem_union_left _ hfd)
    · exact ⟨ch, (find_eq_some.mp hch).1, rfl⟩
    · exact h fd (Finset.mem_union_right _ hfd)

theorem Owned.clearWritable (h : Owned l) (c : ℕ) : Owned (l.ivyChannelClearWritableEvent c) := by
  unfold ivyChannelClearWritableEvent
  split
  · exact h
  · exact h.of_subset rfl (Finset.union_subset_union_right (Finset.erase_subset _ _))

/-- A channel takes its descriptor with it. -/
theorem Owned.unlink (h : Owned l) {ch : Channel Data} (hch : ch ∈ l.channels_list) :
    Owned (l.unlink ch.id ch.fd) := by
  intro fd hfd
  simp only [Channels.unlink, Finset.mem_union, Finset.mem_erase] at hfd
  have hne : fd ≠ ch.fd := hfd.elim (·.1) (·.1)
  have hmem : fd ∈ l.open_fds ∪ l.wrdy_fds :=
    Finset.mem_union.mpr (hfd.imp (·.2) (·.2))
  obtain ⟨ch', hch', rfl⟩ := h fd hmem
  refine ⟨ch', ?_, rfl⟩
  simp only [Channels.unlink, List.mem_filter, hch', true_and, decide_eq_true_eq]
  intro hid
  exact hne (by rw [List.inj_on_of_nodup_map l.nodup hch' hch hid])

end Channels

open Channels

theorem Acts.grown {l l' : Channels Data} (h : Acts l l') : Grown l l' := by
  induction h with
  | nothing => exact ⟨Nat.le_refl _, fun c hc => .inl hc, fun ch hch => ⟨ch, hch, rfl, rfl⟩⟩
  | add _ fd data handle_delete ih =>
    refine ⟨Nat.le_succ_of_le ih.brk, fun c hc => ?_, fun ch hch => ?_⟩
    · rw [ids_ivyChannelAdd] at hc
      rcases List.mem_cons.mp hc with rfl | hc
      · exact .inr ih.brk
      · exact ih.fresh c hc
    · obtain ⟨ch', hch', heq⟩ := ih.stays ch hch
      exact ⟨ch', List.mem_cons_of_mem _ hch', heq⟩
  | remove _ c ih =>
    refine ⟨ih.brk, fun c' hc' => ih.fresh c' (by simpa using hc'), fun ch hch => ?_⟩
    obtain ⟨ch', hch', hid, hfd⟩ := ih.stays ch hch
    exact ⟨mark c ch', List.mem_map.mpr ⟨ch', hch', rfl⟩, (id_mark c ch').trans hid,
      (fd_mark c ch').trans hfd⟩
  | addWritable _ c ih => exact ih.of_same (ivyChannelAddWritableEvent_same c)
  | clearWritable _ c ih => exact ih.of_same (ivyChannelClearWritableEvent_same c)
  | stop _ ih => exact ih.of_same ⟨rfl, rfl⟩

theorem Acts.owned {l l' : Channels Data} (h : Acts l l') (hl : Owned l) : Owned l' := by
  induction h with
  | nothing => exact hl
  | add _ fd data handle_delete ih => exact ih.add fd data handle_delete
  | remove _ c ih => exact ih.remove c
  | addWritable _ c ih => exact ih.addWritable c
  | clearWritable _ c ih => exact ih.clearWritable c
  | stop _ ih => exact ih.of_subset rfl (Finset.Subset.refl _)

theorem Acts.trans {l l' l'' : Channels Data} (h : Acts l l') (h' : Acts l' l'') : Acts l l'' := by
  induction h' with
  | nothing => exact h
  | add _ fd data handle_delete ih => exact ih.add fd data handle_delete
  | remove _ c ih => exact ih.remove c
  | addWritable _ c ih => exact ih.addWritable c
  | clearWritable _ c ih => exact ih.clearWritable c
  | stop _ ih => exact ih.stop

def Pc.walk : Pc → List ℕ
  | .channelDefferedDelete next => next
  | .ivyChannelHandleExcpt next _ => next
  | .ivyChannelHandleRead next _ => next
  | .ivyChannelHandleWrite next _ => next
  | _ => []

/-- Channels that were deleted are not in the list any more. -/
structure Kept (l : Channels Data) (calls : List Call) : Prop where
  owned : Owned l
  gone : ∀ c, Call.handleDelete c ∈ calls → c < l.brk ∧ c ∉ l.ids
  cycle : LifeCycle calls

/-- The invariant of the loop: what a walk will visit is in the list. -/
structure Sound (s : State Data User) : Prop where
  kept : Kept s.world.channels s.calls
  nodup : s.pc.walk.Nodup
  live : ∀ c ∈ s.pc.walk, c ∈ s.ids

theorem count_le_one {calls : List Call} {a : Call} {R : Call → Call → Prop} (hR : ¬ R a a)
    (h : calls.Pairwise R) : calls.count a ≤ 1 := by
  induction calls with
  | nil => simp
  | cons b calls ih =>
    obtain ⟨hb, htail⟩ := List.pairwise_cons.mp h
    rw [List.count_cons]
    split_ifs with hab
    · have hba : b = a := by simpa using hab
      have hzero : calls.count a = 0 := List.count_eq_zero.mpr fun hmem => hR (hba ▸ hb a hmem)
      omega
    · exact ih htail

/-- A call for channels that were not deleted continues the life cycle. -/
theorem LifeCycle.append {calls : List Call} (h : LifeCycle calls) {call : Call}
    (hcall : ∀ c, Call.handleDelete c ∈ calls → ¬ call.Concerns c)
    (hselect : ∀ fds channels, call = .select fds channels → ∀ fd ∈ fds, ∃ c, (c, fd) ∈ channels) :
    LifeCycle (calls ++ [call]) := by
  have hsilent : (calls ++ [call]).Pairwise fun earlier later =>
      ∀ c, earlier = .handleDelete c → ¬ later.Concerns c := by
    refine List.pairwise_append.mpr ⟨h.silent, List.pairwise_singleton _ _, ?_⟩
    intro earlier hmem later hlater c heq
    rw [List.mem_singleton.mp hlater]
    exact hcall c (heq ▸ hmem)
  refine ⟨hsilent, fun c => count_le_one (fun hR => hR c rfl rfl) hsilent, ?_⟩
  intro fds channels hmem
  rcases List.mem_append.mp hmem with hmem | hmem
  · exact h.onBehalf fds channels hmem
  · exact hselect fds channels (List.mem_singleton.mp hmem).symm

namespace Kept
variable {l l' : Channels Data} {calls : List Call} (h : Kept l calls)
include h

theorem acts (hacts : Acts l l') : Kept l' calls := by
  refine ⟨hacts.owned h.owned, fun c hc => ?_, h.cycle⟩
  obtain ⟨hlt, hnot⟩ := h.gone c hc
  refine ⟨Nat.lt_of_lt_of_le hlt hacts.grown.brk, fun hmem => ?_⟩
  rcases hacts.grown.fresh c hmem with hold | hnew
  · exact hnot hold
  · exact absurd hlt (Nat.not_lt_of_le hnew)

theorem call {c : ℕ} (hc : c ∈ l.ids) {call : Call} (hcall : call = .handleRead c ∨ call = .handleWrite c) :
    Kept l (calls ++ [call]) := by
  have hnot : ∀ c', Call.handleDelete c' ∈ calls → c' ≠ c := by
    intro c' hc' heq
    exact (h.gone c' hc').2 (heq ▸ hc)
  refine ⟨h.owned, fun c' hc' => ?_, h.cycle.append (fun c' hc' => ?_) ?_⟩
  · rcases List.mem_append.mp hc' with hc' | hc'
    · exact h.gone c' hc'
    · rcases hcall with rfl | rfl <;> simp at hc'
  · rcases hcall with rfl | rfl <;> exact fun heq => hnot c' hc' heq.symm
  · rcases hcall with rfl | rfl <;> simp

theorem unlink {ch : Channel Data} (hch : ch ∈ l.channels_list) :
    Kept (l.unlink ch.id ch.fd) calls := by
  refine ⟨h.owned.unlink hch, fun c hc => ?_, h.cycle⟩
  obtain ⟨hlt, hnot⟩ := h.gone c hc
  exact ⟨hlt, fun hmem => hnot (mem_ids_unlink.mp hmem).1⟩

theorem delete {ch : Channel Data} (hch : ch ∈ l.channels_list) (hacts : Acts l l') :
    Kept (l'.unlink ch.id ch.fd) (calls ++ [.handleDelete ch.id]) := by
  obtain ⟨ch', hch', hid, hfd⟩ := hacts.grown.stays ch hch
  have hunlinked := (h.acts hacts).unlink hch'
  rw [hid, hfd] at hunlinked
  have hmem : ch.id ∈ l.ids := List.mem_map.mpr ⟨ch, hch, rfl⟩
  refine ⟨hunlinked.owned, fun c hc => ?_, h.cycle.append (fun c hc heq => ?_) (by simp)⟩
  · rcases List.mem_append.mp hc with hc | hc
    · exact hunlinked.gone c hc
    · obtain rfl : c = ch.id := by simpa using hc
      exact ⟨Nat.lt_of_lt_of_le (ids_lt hmem) hacts.grown.brk,
        fun hmem' => (mem_ids_unlink.mp hmem').2 rfl⟩
  · obtain rfl : ch.id = c := heq
    exact (h.gone _ hc).2 hmem

theorem select {fds : Finset ℕ} (hfds : fds ⊆ l.open_fds ∪ l.wrdy_fds) :
    Kept l (calls ++ [.select fds (l.channels_list.map fun ch => (ch.id, ch.fd))]) := by
  refine ⟨h.owned, fun c hc => ?_, h.cycle.append (fun c hc => ?_) ?_⟩
  · rcases List.mem_append.mp hc with hc | hc
    · exact h.gone c hc
    · simp at hc
  · rintro ⟨fd, -, hmem⟩
    obtain ⟨ch, hch, heq⟩ := List.mem_map.mp hmem
    exact (h.gone c hc).2 (List.mem_map.mpr ⟨ch, hch, (Prod.mk.inj heq).1⟩)
  · intro fds' channels heq fd hfd
    obtain ⟨rfl, rfl⟩ := Call.select.inj heq
    obtain ⟨ch, hch, rfl⟩ := h.owned fd (hfds hfd)
    exact ⟨ch.id, List.mem_map.mpr ⟨ch, hch, rfl⟩⟩

end Kept

theorem passed_subset (l : Channels Data) :
    (passed l).rdset ∪ (passed l).wrset ⊆ l.open_fds ∪ l.wrdy_fds :=
  Finset.union_subset_union (Finset.filter_subset _ _) (Finset.filter_subset _ _)

section Steps
variable {p : Program Data User Env} (hp : p.WellBehaved) {env : Env} {s t : State Data User}

/-- What one visit of a walk may do: it keeps the invariant and the channels still to visit. -/
structure Visited (ch : Channel Data) (s t : State Data User) : Prop where
  kept : Kept t.world.channels t.calls
  ids : ∀ c ∈ s.ids, c ≠ ch.id → c ∈ t.ids

theorem Visited.same {ch : Channel Data} (h : Kept s.world.channels s.calls) : Visited ch s s :=
  ⟨h, fun _ hc _ => hc⟩

include hp

theorem visited_delete {ch : Channel Data} (h : Kept s.world.channels s.calls)
    (hch : ch ∈ s.world.channels.channels_list) (ht : visitDelete p env ch s = some t) :
    Visited ch s t := by
  unfold visitDelete at ht
  split_ifs at ht with hmarked
  · unfold ivyChannelDelete callDelete at ht
    split_ifs at ht with hhandler
    · obtain ⟨u, hu, rfl⟩ := Option.map_eq_some_iff.mp ht
      obtain ⟨w, hw, rfl⟩ := Option.map_eq_some_iff.mp hu
      have hacts := hp.handleDelete env ch _ w hw
      exact ⟨h.delete hch hacts, fun c hc hne => mem_ids_unlink.mpr ⟨hacts.grown.ids hc, hne⟩⟩
    · obtain ⟨u, hu, rfl⟩ := Option.map_eq_some_iff.mp ht
      obtain rfl := Option.some.inj hu
      exact ⟨h.unlink hch, fun c hc hne => mem_ids_unlink.mpr ⟨hc, hne⟩⟩
  · obtain rfl := Option.some.inj ht
    exact .same h

omit hp in
theorem visited_excpt {ch : Channel Data} {sets : FdSets} (h : Kept s.world.channels s.calls)
    (hno : ch.fd ∈ sets.exset → ch.handle_delete = false) (ht : visitExcpt p env sets ch s = some t) :
    Visited ch s t := by
  unfold visitExcpt at ht
  split_ifs at ht with hset
  · unfold callDelete at ht
    rw [if_neg (by simp [hno hset])] at ht
    obtain rfl := Option.some.inj ht
    exact .same h
  · obtain rfl := Option.some.inj ht
    exact .same h

theorem visited_read {ch : Channel Data} {sets : FdSets} (h : Kept s.world.channels s.calls)
    (hch : ch ∈ s.world.channels.channels_list) (ht : visitRead p env sets ch s = some t) :
    Visited ch s t := by
  unfold visitRead at ht
  split_ifs at ht with hset
  · obtain ⟨w, hw, rfl⟩ := Option.map_eq_some_iff.mp ht
    have hacts := hp.handleRead env ch _ w hw
    have hmem : ch.id ∈ s.world.channels.ids := List.mem_map.mpr ⟨ch, hch, rfl⟩
    exact ⟨(h.call hmem (.inl rfl)).acts hacts, fun c hc _ => hacts.grown.ids hc⟩
  · obtain rfl := Option.some.inj ht
    exact .same h

theorem visited_write {ch : Channel Data} {sets : FdSets} (h : Kept s.world.channels s.calls)
    (hch : ch ∈ s.world.channels.channels_list) (ht : visitWrite p env sets ch s = some t) :
    Visited ch s t := by
  unfold visitWrite at ht
  split_ifs at ht with hset
  · obtain ⟨w, hw, rfl⟩ := Option.map_eq_some_iff.mp ht
    have hacts := hp.handleWrite env ch _ w hw
    have hmem : ch.id ∈ s.world.channels.ids := List.mem_map.mpr ⟨ch, hch, rfl⟩
    exact ⟨(h.call hmem (.inr rfl)).acts hacts, fun c hc _ => hacts.grown.ids hc⟩
  · obtain rfl := Option.some.inj ht
    exact .same h

omit hp in
theorem Sound.visit {body : Channel Data → State Data User → Option (State Data User)} {c : ℕ}
    {next : List ℕ} {pc : Pc} (h : Sound s) (hwalk : s.pc.walk = c :: next) (hpc : pc.walk = next)
    (hbody : ∀ ch t, s.world.channels.find c = some ch → body ch s = some t → Visited ch s t)
    (ht : visit body c pc s = some t) : Sound t := by
  obtain ⟨ch, u, hfind, hu, rfl⟩ := visit_cases ht
  obtain ⟨hkept, hids⟩ := hbody ch u hfind hu
  have hid : ch.id = c := (find_eq_some.mp hfind).2
  obtain ⟨hc, hnodup⟩ := List.nodup_cons.mp (hwalk ▸ h.nodup)
  refine ⟨hkept, ?_, ?_⟩
  · change pc.walk.Nodup
    rwa [hpc]
  · change ∀ c' ∈ pc.walk, c' ∈ u.ids
    intro c' hc'
    rw [hpc] at hc'
    refine hids c' (h.live c' ?_) fun heq => ?_
    · rw [hwalk]
      exact List.mem_cons_of_mem _ hc'
    · exact hc (hid ▸ heq ▸ hc')

omit hp in
theorem Sound.goto {pc : Pc} (h : Sound s) (hpc : pc.walk = s.ids ∨ pc.walk = []) : Sound (s.goto pc) := by
  refine ⟨h.kept, ?_, ?_⟩
  · change pc.walk.Nodup
    rcases hpc with hpc | hpc
    · rw [hpc]
      exact s.world.channels.nodup
    · simp [hpc]
  · change ∀ c ∈ pc.walk, c ∈ s.ids
    rcases hpc with hpc | hpc
    · rw [hpc]
      exact fun _ hc => hc
    · simp [hpc]

theorem sound_advance (h : Sound s) (hno : NoException s (Event.next env)) (ht : advance p env s = some t) :
    Sound t := by
  have hlist {c : ℕ} {ch : Channel Data} (hfind : s.world.channels.find c = some ch) :
      ch ∈ s.world.channels.channels_list := (find_eq_some.mp hfind).1
  unfold advance at ht
  split at ht
  case h_1 => simp at ht
  case h_2 =>
    obtain rfl := Option.some.inj ht
    exact h.goto (.inr rfl)
  case h_3 c next hpc =>
    refine h.visit (by rw [hpc]; rfl) rfl (fun ch u hfind hu => ?_) ht
    exact visited_delete hp h.kept (hlist hfind) hu
  case h_4 => simp at ht
  case h_5 =>
    obtain rfl := Option.some.inj ht
    exact h.goto (.inl rfl)
  case h_6 =>
    obtain rfl := Option.some.inj ht
    exact h.goto (.inl rfl)
  case h_7 c next sets hpc =>
    refine h.visit (by rw [hpc]; rfl) rfl (fun ch u hfind hu => ?_) ht
    have hexcepted : s.pc.excepted = some (c, sets) := by rw [hpc]; rfl
    exact visited_excpt h.kept (hno (c, sets) hexcepted ch hfind) hu
  case h_8 =>
    obtain rfl := Option.some.inj ht
    exact h.goto (.inl rfl)
  case h_9 c next sets hpc =>
    refine h.visit (by rw [hpc]; rfl) rfl (fun ch u hfind hu => ?_) ht
    exact visited_read hp h.kept (hlist hfind) hu
  case h_10 =>
    obtain rfl := Option.some.inj ht
    exact h.goto (.inr rfl)
  case h_11 c next sets hpc =>
    refine h.visit (by rw [hpc]; rfl) rfl (fun ch u hfind hu => ?_) ht
    exact visited_write hp h.kept (hlist hfind) hu

/-- A hook acts while no walk is going on. -/
theorem Sound.hook (h : Sound s) (hwalk : s.pc.walk = [])
    (ht : s.withWorld (p.hook env s.world) = some t) : Sound t := by
  obtain ⟨w, hw, rfl⟩ := Option.map_eq_some_iff.mp ht
  have hacts := hp.hook env _ w hw
  refine ⟨h.kept.acts hacts, h.nodup, fun c hc => ?_⟩
  have hnone : c ∈ ([] : List ℕ) := hwalk ▸ hc
  simp at hnone

omit hp in
theorem Sound.select (h : Sound s) (ready : Option FdSets) : Sound (select ready s) := by
  have hkept := h.kept.select (passed_subset s.world.channels)
  unfold Loop.select
  cases ready with
  | none => exact ⟨hkept, List.nodup_nil, by simp [State.goto, Pc.walk]⟩
  | some r => exact ⟨hkept, List.nodup_nil, by simp [State.goto, Pc.walk]⟩

theorem sound_step {e : Event Env} (h : Sound s) (hno : NoException s e) (ht : step p s e = some t) :
    Sound t := by
  cases e with
  | enter idle =>
    simp only [step] at ht
    split at ht
    · split_ifs at ht
      obtain rfl := Option.some.inj ht
      exact h.goto (.inl rfl)
    · simp at ht
  | next env => exact sound_advance hp h hno ht
  | hook env =>
    simp only [step] at ht
    split at ht
    · rename_i hpc
      exact h.hook hp (by rw [hpc]; rfl) ht
    · rename_i hpc
      exact h.hook hp (by rw [hpc]; rfl) ht
    · simp at ht
  | select ready =>
    simp only [step] at ht
    split at ht
    · obtain rfl := Option.some.inj ht
      exact h.select ready
    · simp at ht

end Steps

theorem started_sound {l : Channels Data} (hl : Acts ivyChannelInit l) (user : User) :
    Sound (started ⟨l, user⟩) := by
  have hinit : Owned (ivyChannelInit : Channels Data) := by simp [Owned, ivyChannelInit]
  exact ⟨⟨hl.owned hinit, by simp [started], by simp [started], by simp [started], by simp [started]⟩,
    List.nodup_nil, by simp [started, Pc.walk]⟩

/-- In every run in which `select` reports no exceptional condition on a channel with a
`handle_delete`, each channel is deleted at most once and is silent from then on. -/
theorem life_cycle (p : Program Data User Env) (hp : p.WellBehaved) (l : Channels Data)
    (hl : Acts ivyChannelInit l) (user : User) (events : List (Event Env))
    (hno : Machine.Guarded (step p) NoException (started ⟨l, user⟩) events) (s : State Data User)
    (hrun : Machine.run (step p) (started ⟨l, user⟩) events = some s) : LifeCycle s.calls :=
  (Machine.run_guarded (I := fun _ => Sound) (started_sound hl user)
    (fun _ _ _ _ h hG ht => sound_step hp h hG ht) hno hrun).kept.cycle

/-- A server that its owner removes as soon as it is read. -/
def removed : Program Unit Unit Unit where
  handleDelete _ _ w := some w
  handleRead _ ch w := some { w with channels := w.channels.ivyChannelRemove ch.id }
  handleWrite _ _ w := some w
  hook _ w := some w

theorem removed_wellBehaved : removed.WellBehaved where
  handleDelete _ _ _ _ h := Option.some.inj h ▸ .nothing _
  handleRead _ ch _ _ h := Option.some.inj h ▸ (Acts.nothing _).remove ch.id
  handleWrite _ _ _ _ h := Option.some.inj h ▸ .nothing _
  hook _ _ _ h := Option.some.inj h ▸ .nothing _

def oneChannel : Channels Unit := ivyChannelInit.ivyChannelAdd 3 () true

/-- Two turns; in the first one the channel is readable. -/
def twoTurns (exset : Finset ℕ) : List (Event Unit) :=
  [.enter false, .next (), .next (), .select (some ⟨{3}, ∅, exset⟩), .next (), .next (), .next (),
    .next (), .next (), .next (), .next (), .enter false, .next (), .next ()]

/-- A channel that is read and removed is deleted once. -/
theorem life_cycle_removed : ∃ s, Machine.run (step removed) (started ⟨oneChannel, ()⟩) (twoTurns ∅) = some s ∧
    s.calls.count (.handleDelete 0) = 1 ∧ LifeCycle s.calls := by
  refine ⟨_, rfl, by decide, ?_⟩
  exact life_cycle removed removed_wellBehaved oneChannel ((Acts.nothing _).add 3 () true) () (twoTurns ∅)
    (by decide) _ rfl

/-- If it has an exceptional condition too, its `handle_delete` is called twice, and
`handle_read` in between. -/
theorem exception_deletes_twice :
    ∃ s, Machine.run (step removed) (started ⟨oneChannel, ()⟩) (twoTurns {3}) = some s ∧
      s.calls = [.select {3} [(0, 3)], .handleDelete 0, .handleRead 0, .handleDelete 0] ∧
      ¬ LifeCycle s.calls := by
  refine ⟨_, rfl, by decide, fun h => ?_⟩
  exact absurd (h.once 0) (by decide)

end Ivy.Loop

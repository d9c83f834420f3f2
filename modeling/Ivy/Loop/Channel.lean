import Ivy.Lib.Keyed
import Mathlib.Data.Finset.Basic

/-! The channels of `ivyloop.c` and what a handler may do with them. -/
namespace Ivy.Loop

/-- `struct _channel`; `id` is its address, and `handle_delete` whether it has that handler. -/
structure Channel (Data : Type*) where
  id : ℕ
  fd : ℕ
  tobedeleted : Bool
  handle_delete : Bool
  data : Data
  deriving DecidableEq, Repr

/-- The static variables. Addresses from `brk` on are unused. -/
structure Channels (Data : Type*) where
  channels_list : List (Channel Data)
  brk : ℕ
  open_fds : Finset ℕ
  wrdy_fds : Finset ℕ
  highestFd : ℕ
  mainLoop : Bool
  nodup : (channels_list.map (·.id)).Nodup
  below : ∀ ch ∈ channels_list, ch.id < brk

variable {Data : Type*}

def ivyChannelInit : Channels Data := ⟨[], 0, ∅, ∅, 0, true, by simp, by simp⟩

namespace Channels
variable (l : Channels Data)

def ids : List ℕ := l.channels_list.map (·.id)

def find (c : ℕ) : Option (Channel Data) := Keyed.find (·.id) l.channels_list c

/-- A new channel stands first. -/
def ivyChannelAdd (fd : ℕ) (data : Data) (handle_delete : Bool) : Channels Data where
  channels_list := ⟨l.brk, fd, false, handle_delete, data⟩ :: l.channels_list
  brk := l.brk + 1
  open_fds := insert fd l.open_fds
  wrdy_fds := l.wrdy_fds
  highestFd := if fd ≥ l.highestFd then fd + 1 else l.highestFd
  mainLoop := l.mainLoop
  nodup := by
    have hnew : l.brk ∉ l.channels_list.map (·.id) := by
      intro hmem
      obtain ⟨ch, hch, hid⟩ := List.mem_map.mp hmem
      exact absurd hid (Nat.ne_of_lt (l.below ch hch))
    simpa using ⟨by simpa using hnew, l.nodup⟩
  below ch hch := by
    rcases List.mem_cons.mp hch with rfl | hch
    · exact Nat.lt_succ_self _
    · exact Nat.lt_succ_of_lt (l.below ch hch)

def mark (c : ℕ) (ch : Channel Data) : Channel Data :=
  if ch.id = c then { ch with tobedeleted := true } else ch

theorem id_mark (c : ℕ) (ch : Channel Data) : (mark c ch).id = ch.id := by
  unfold mark
  split_ifs <;> rfl

theorem fd_mark (c : ℕ) (ch : Channel Data) : (mark c ch).fd = ch.fd := by
  unfold mark
  split_ifs <;> rfl

def ivyChannelRemove (c : ℕ) : Channels Data where
  channels_list := l.channels_list.map (mark c)
  brk := l.brk
  open_fds := l.open_fds
  wrdy_fds := l.wrdy_fds
  highestFd := l.highestFd
  mainLoop := l.mainLoop
  nodup := Keyed.nodup_map (id_mark c) l.nodup
  below ch hch := by
    obtain ⟨old, hold, rfl⟩ := List.mem_map.mp hch
    rw [id_mark]
    exact l.below old hold

def ivyChannelAddWritableEvent (c : ℕ) : Channels Data :=
  match l.find c with
  | none => l
  | some ch => { l with
      highestFd := if ch.fd ≥ l.highestFd then ch.fd + 1 else l.highestFd
      wrdy_fds := insert ch.fd l.wrdy_fds }

def ivyChannelClearWritableEvent (c : ℕ) : Channels Data :=
  match l.find c with
  | none => l
  | some ch => { l with wrdy_fds := l.wrdy_fds.erase ch.fd }

def ivyChannelStop : Channels Data := { l with mainLoop := false }

/-- What `IvyChannelDelete` does after the handler: `FD_CLR` and `IVY_LIST_REMOVE`. -/
def unlink (c fd : ℕ) : Channels Data where
  channels_list := l.channels_list.filter (·.id ≠ c)
  brk := l.brk
  open_fds := l.open_fds.erase fd
  wrdy_fds := l.wrdy_fds.erase fd
  highestFd := l.highestFd
  mainLoop := l.mainLoop
  nodup := l.nodup.sublist (List.filter_sublist.map _)
  below ch hch := l.below ch (List.mem_of_mem_filter hch)

end Channels

/-- What a handler may do: calls of these functions, on live channels. -/
inductive Acts : Channels Data → Channels Data → Prop
  | nothing (l) : Acts l l
  | add {l l'} (h : Acts l l') (fd : ℕ) (data : Data) (handle_delete : Bool) :
      Acts l (l'.ivyChannelAdd fd data handle_delete)
  | remove {l l'} (h : Acts l l') (c : ℕ) : Acts l (l'.ivyChannelRemove c)
  | addWritable {l l'} (h : Acts l l') (c : ℕ) : Acts l (l'.ivyChannelAddWritableEvent c)
  | clearWritable {l l'} (h : Acts l l') (c : ℕ) : Acts l (l'.ivyChannelClearWritableEvent c)
  | stop {l l'} (h : Acts l l') : Acts l l'.ivyChannelStop

end Ivy.Loop

import Ivy.Discovery.Datagrams
import Ivy.Discovery.Identifier
import Ivy.Protocol.Args

/-! The hello that `IvyStart` sends, read by `IvyParseDiscovery` on the other side. -/
namespace Ivy.Discovery
open Socket

def Application.line (app : Application) : Text :=
  decimal ivyMajorVersion ++ [space] ++ decimal app.applicationPort.toNat ++ [space] ++
    app.applicationID ++ [space] ++ app.applicationName

theorem Application.hello_eq (app : Application) : app.hello = app.line ++ [newline] := rfl

/-- The strings of the application are C strings. -/
structure Application.Terminated (app : Application) : Prop where
  applicationID : 0 ∉ app.applicationID
  applicationName : 0 ∉ app.applicationName

/-- A hello of the grammar, with a port; no blank stands in front of the name. -/
structure Application.Announceable (app : Application) : Prop where
  port_ne_zero : app.applicationPort ≠ 0
  id_field : Field endsId 128 app.applicationID
  name_field : Field endsName 2048 app.applicationName
  name_first : startsBlank app.applicationName = false

theorem zero_not_mem_decimal (z : ℤ) : 0 ∉ decimal z := not_mem_decimal (by decide)

theorem Application.Terminated.line {app : Application} (h : app.Terminated) : 0 ∉ app.line := by
  have hspace : (0 : UInt8) ∉ [space] := by decide
  unfold Application.line
  simp only [List.mem_append, not_or]
  exact ⟨⟨⟨⟨⟨⟨zero_not_mem_decimal _, hspace⟩, zero_not_mem_decimal _⟩, hspace⟩, h.applicationID⟩, hspace⟩,
    h.applicationName⟩

def fieldString (field : ℕ → UInt8) (size : ℕ) : Text := stringAt (Block.read field 0 size) 0

theorem fieldString_storeField (field : ℕ → UInt8) {bytes : Text} {size : ℕ} (hsize : bytes.length < size)
    (hzero : 0 ∉ bytes) : fieldString (storeField field bytes) size = bytes := by
  obtain ⟨spare, rfl⟩ := Nat.exists_eq_add_of_le hsize
  have hread : Block.read (storeField field bytes) 0 (bytes.length + 1) = bytes ++ [0] :=
    Block.read_write_length field 0 List.length_append
  unfold fieldString stringAt
  rw [Nat.succ_eq_add_one, Block.read_add, hread, List.drop_zero, List.append_assoc,
    List.takeWhile_append_of_pos fun b hb => by simpa using fun hb0 : b = 0 => hzero (hb0 ▸ hb)]
  simp

structure ReadBack (app : Application) (line : CString) (out : Outputs) : Prop where
  accepted : (ivyParseDiscovery line 128 2048 out).1 = true
  version : (ivyParseDiscovery line 128 2048 out).2.version = ivyMajorVersion
  port : (ivyParseDiscovery line 128 2048 out).2.port = app.applicationPort
  appid : fieldString (ivyParseDiscovery line 128 2048 out).2.appid 128 = app.applicationID
  appname : fieldString (ivyParseDiscovery line 128 2048 out).2.appname 2048 = app.applicationName

theorem number_decimalNat (n : ℕ) : Number (decimalNat n) n :=
  ⟨decimalNat_ne_nil n, Interval.decimalNat_digits n, Interval.digitsValue_decimalNat n⟩

theorem blanks_space : Blanks [space] := by
  intro b hb
  rw [List.mem_singleton.mp hb]
  rfl

theorem Application.Announceable.hello {app : Application} (h : app.Announceable) :
    Hello app.line 128 2048 3 app.applicationPort.toNat app.applicationID app.applicationName where
  version_le := by decide
  port_pos := Nat.one_le_iff_ne_zero.mpr fun hzero => h.port_ne_zero (UInt16.toNat_inj.mp hzero)
  port_le := Nat.le_of_lt_succ app.applicationPort.toNat_lt
  id_field := h.id_field
  name_field := h.name_field
  name_first := h.name_first
  layout := by
    refine ⟨[], decimalNat 3, [space], decimalNat app.applicationPort.toNat, [space], [space], [], ?_,
      fun b hb => absurd hb List.not_mem_nil, number_decimalNat 3, blanks_space, List.cons_ne_nil _ _,
      number_decimalNat _, blanks_space, List.cons_ne_nil _ _, blanks_space, List.cons_ne_nil _ _, Or.inl rfl⟩
    unfold Application.line
    simp only [List.append_assoc, List.append_nil, List.nil_append]
    rfl

theorem Hello.stored {line : CString} {version port : ℕ} {appid appname : Text}
    (h : Hello line.bytes 128 2048 version port appid appname) (out : Outputs) :
    ivyParseDiscovery line 128 2048 out = (true, Discovery.stored out version port appid appname) ∧
      fieldString (Discovery.stored out version port appid appname).appid 128 = appid ∧
      fieldString (Discovery.stored out version port appid appname).appname 2048 = appname := by
  obtain ⟨before, ds, between, ds', after, gap, ending, hline, -⟩ := h.layout
  have hzero := line.noZero
  rw [hline] at hzero
  simp only [List.mem_append, not_or] at hzero
  obtain ⟨-, -, hid, -, hname, -⟩ := hzero
  exact ⟨h.accepted, fieldString_storeField _ h.id_field.fits hid, fieldString_storeField _ h.name_field.fits hname⟩

/-- A hello is read back exactly if it has the grammar. -/
theorem readBack_iff {app : Application} {line : CString} (hline : line.bytes = app.line) (out : Outputs) :
    ReadBack app line out ↔ app.Announceable := by
  constructor
  · intro h
    obtain ⟨version, port, appid, appname, hhello⟩ := ivyParseDiscovery_accepts h.accepted
    obtain ⟨hparse, happid, happname⟩ := hhello.stored out
    have hid := h.appid
    have hname := h.appname
    have hport := h.port
    rw [hparse] at hid hname hport
    rw [happid] at hid
    rw [happname] at hname
    refine ⟨fun hzero => ?_, hid ▸ hhello.id_field, hname ▸ hhello.name_field, hname ▸ hhello.name_first⟩
    have htoNat : (UInt16.ofNat port).toNat = 0 := by
      have hstored : UInt16.ofNat port = app.applicationPort := hport
      rw [hstored, hzero]
      rfl
    have hpos := hhello.port_pos
    have hle := hhello.port_le
    rw [UInt16.toNat_ofNat'] at htoNat
    omega
  · intro h
    have hhello : Hello line.bytes 128 2048 3 app.applicationPort.toNat app.applicationID app.applicationName :=
      hline ▸ h.hello
    obtain ⟨hparse, happid, happname⟩ := hhello.stored out
    refine ⟨?_, ?_, ?_, ?_, ?_⟩ <;> rw [hparse]
    · rfl
    · exact UInt16.ofNat_toNat
    · exact happid
    · exact happname

/-- An application with the identifier `7:10:5000`. -/
private def someApplication : Application := ⟨5000, ascii "7:10:5000", ascii "my app"⟩

theorem readBack_example : ∃ h : 0 ∉ someApplication.line,
    ReadBack someApplication ⟨someApplication.line, h⟩ ⟨0, 0, fun _ => 0, fun _ => 0⟩ := by
  have hannounceable : someApplication.Announceable :=
    ⟨by decide, ⟨by decide, by decide, by decide +kernel⟩, ⟨by decide, by decide, by decide +kernel⟩, rfl⟩
  exact ⟨by decide, (readBack_iff rfl _).mpr hannounceable⟩

/-- The datagram is one line. -/
theorem Application.Announceable.singleLine {app : Application} (h : app.Announceable) :
    SingleLine app.line app.hello := by
  refine ⟨app.hello_eq, ?_, ?_⟩
  · have hspace : newline ∉ [space] := by decide
    have hid : newline ∉ app.applicationID := fun hmem => absurd (h.id_field.bytes _ hmem) (by decide)
    have hname : newline ∉ app.applicationName := fun hmem => absurd (h.name_field.bytes _ hmem) (by decide)
    have hdecimal (z : ℤ) : newline ∉ decimal z := not_mem_decimal (by decide)
    unfold Application.line
    simp only [List.mem_append, not_or]
    exact ⟨⟨⟨⟨⟨⟨hdecimal _, hspace⟩, hdecimal _⟩, hspace⟩, hid⟩, hspace⟩, hname⟩
  · have hversion : (decimal ivyMajorVersion).length = 1 := rfl
    have hport := length_decimal_uint16 app.applicationPort
    have hid := h.id_field.fits
    have hname := h.name_field.fits
    have hsize : ivyBufferSize = 4096 := rfl
    unfold Application.hello
    simp only [List.length_append, List.length_singleton]
    omega

/-- The broadcast socket is read, and holds no part of a line. -/
structure Quiet (c : Receiver) : Prop where
  listening : Listening c
  ptr : c.ptr = 0
  stays : c.tobedeleted = false

theorem quiet_newReceiver : Quiet newReceiver := ⟨newReceiver_listening, rfl, rfl⟩

theorem Quiet.receives {c : Receiver} (h : Quiet c) {line : Text} {d : List UInt8} (hline : SingleLine line d) :
    (receiveDatagram c d).delivered = c.delivered ++ [line] ∧ Quiet (receiveDatagram c d) := by
  have hd : d ≠ [] := by
    rw [hline.1]
    simp
  have hdelivered := (handleSocket_singleLine h.listening hd hline).mpr h.ptr
  obtain ⟨hlistening, ls, hls, hlines⟩ := handleSocket_listening h.listening hd
  have hopen : (handleSocket broadcastReceive c (.bytes d)).tobedeleted ≠ true :=
    (handleSocket_tobedeleted h.listening.fits h.stays d).not.mpr hd
  have hheld : c.held = [] := by
    rw [← List.length_eq_zero_iff, Receiver.held, Block.length_read]
    exact h.ptr
  obtain rfl : ls = [line] := List.append_cancel_left (hls.symm.trans hdelivered)
  -- the line is the whole datagram, so nothing is left
  have hrest : ((handleSocket broadcastReceive c (.bytes d)).held).length = 0 := by
    have hlength := congrArg List.length hlines.eq
    have htake := List.length_take_le' (nbToRead c) d
    rw [hheld, List.map_singleton, List.flatten_singleton, ← hline.1, List.nil_append, List.length_append] at hlength
    omega
  rw [Receiver.held, Block.length_read] at hrest
  unfold receiveDatagram
  rw [if_neg (by simp [h.stays])]
  exact ⟨hdelivered, hlistening, hrest, by simpa using hopen⟩

end Ivy.Discovery

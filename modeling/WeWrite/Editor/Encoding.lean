import WeWrite.Editor.Controller

/-!
# UTF-16 units and bytes

The content of a broadcast leaves one device as UTF-8 bytes and is read on another as a
C string in that device's default encoding.  This module has the outgoing conversion, the
one property of the incoming conversion that every default encoding has, and a device to
run examples on.

Main results:

- Theorem `ExtendsAscii.roundTrip`: one ASCII character other than NUL comes back as itself
  on every device, whichever device sent it.
-/

namespace WeWrite

/-- `unichar`, one UTF-16 unit. -/
abbrev Unichar := UInt16

/-- The UTF-8 bytes of a code point. -/
def utf8Point (point : Nat) : List UInt8 :=
  if point < 0x80 then
    [.ofNat point]
  else if point < 0x800 then
    [.ofNat (0xC0 + point / 64), .ofNat (0x80 + point % 64)]
  else if point < 0x10000 then
    [.ofNat (0xE0 + point / 4096), .ofNat (0x80 + point / 64 % 64), .ofNat (0x80 + point % 64)]
  else
    [.ofNat (0xF0 + point / 262144), .ofNat (0x80 + point / 4096 % 64),
      .ofNat (0x80 + point / 64 % 64), .ofNat (0x80 + point % 64)]

/-- The first unit of a surrogate pair. -/
def isHighSurrogate (u : Unichar) : Prop :=
  0xD800 ≤ u.toNat ∧ u.toNat < 0xDC00

/-- The second unit of a surrogate pair. -/
def isLowSurrogate (u : Unichar) : Prop :=
  0xDC00 ≤ u.toNat ∧ u.toNat < 0xE000

instance (u : Unichar) : Decidable (isHighSurrogate u) :=
  inferInstanceAs (Decidable (_ ∧ _))

instance (u : Unichar) : Decidable (isLowSurrogate u) :=
  inferInstanceAs (Decidable (_ ∧ _))

/-- `UTF8String` of a string in which every surrogate stands in a pair.  A surrogate outside a pair
has no UTF-8 form; what stands here for one is not the source's, and no result is about it. -/
def utf8Bytes : NSString Unichar → List UInt8
  | [] => []
  | [u] => utf8Point u.toNat
  | u :: v :: rest =>
      if isHighSurrogate u ∧ isLowSurrogate v then
        utf8Point (0x10000 + (u.toNat - 0xD800) * 1024 + (v.toNat - 0xDC00)) ++ utf8Bytes rest
      else
        utf8Point u.toNat ++ utf8Bytes (v :: rest)

/-- An ASCII character other than NUL. -/
def AsciiChar (u : Unichar) : Prop :=
  0 < u.toNat ∧ u.toNat < 0x80

instance (u : Unichar) : Decidable (AsciiChar u) :=
  inferInstanceAs (Decidable (_ ∧ _))

/-- What every device promises for ASCII: the bytes sent are the UTF-8 bytes, and the
default encoding reads an ASCII byte other than NUL as the same character. -/
structure ExtendsAscii (dev : Device Unichar UInt8) : Prop where
  utf8 : ∀ u, AsciiChar u → dev.utf8String [u] = utf8Bytes [u]
  ascii : ∀ u : Unichar, AsciiChar u → dev.stringWithCString [UInt8.ofNat u.toNat] = [u]

theorem utf8Bytes_ascii {u : Unichar} (hu : AsciiChar u) :
    utf8Bytes [u] = [UInt8.ofNat u.toNat] := by
  rw [utf8Bytes, utf8Point, if_pos hu.2]

/-- The byte of an ASCII character has its value. -/
theorem toUInt16_ofNat_ascii {u : Unichar} (hu : AsciiChar u) :
    (UInt8.ofNat u.toNat).toUInt16 = u := by
  apply UInt16.toNat.inj
  rw [UInt8.toNat_toUInt16, UInt8.toNat_ofNat']
  have hlt := hu.2
  omega

/-- Every device reads the UTF-8 bytes of an ASCII character as that character. -/
theorem ExtendsAscii.read_utf8Bytes {dev : Device Unichar UInt8} (hdev : ExtendsAscii dev)
    {u : Unichar} (hu : AsciiChar u) : dev.stringWithCString (utf8Bytes [u]) = [u] := by
  rw [utf8Bytes_ascii hu, hdev.ascii u hu]

/-- One ASCII character survives the way from any device to any other. -/
theorem ExtendsAscii.roundTrip {sender receiver : Device Unichar UInt8}
    (hsender : ExtendsAscii sender) (hreceiver : ExtendsAscii receiver) {u : Unichar}
    (hu : AsciiChar u) : receiver.stringWithCString (sender.utf8String [u]) = [u] := by
  rw [hsender.utf8 u hu, hreceiver.read_utf8Bytes hu]

/-- A device whose default encoding is Latin-1.  Setting a text puts the caret behind it, and
a range that does not fit is cut to the text. -/
def latin1Device : Device Unichar UInt8 where
  utf8String := utf8Bytes
  stringWithCString bytes := (bytes.takeWhile (· ≠ 0)).map UInt8.toUInt16
  selectionAfterSetText text _ := ⟨text.length, 0⟩
  takenSelection text range :=
    let location := min (max range.location 0) text.length
    ⟨location, min range.length (text.length - location)⟩

theorem latin1Device_extendsAscii : ExtendsAscii latin1Device where
  utf8 _ _ := rfl
  ascii u hu := by
    have hback := toUInt16_ofNat_ascii hu
    have hbyte : UInt8.ofNat u.toNat ≠ 0 := by
      intro hzero
      rw [hzero] at hback
      rw [← hback] at hu
      exact absurd hu (by decide)
    have htake : [UInt8.ofNat u.toNat].takeWhile (· ≠ 0) = [UInt8.ofNat u.toNat] :=
      List.takeWhile_cons_of_pos (by simpa using hbyte)
    change ([UInt8.ofNat u.toNat].takeWhile (· ≠ 0)).map UInt8.toUInt16 = [u]
    rw [htake, List.map_singleton, hback]

/-- A text view with the caret behind the given text. -/
def viewOf (text : NSString Unichar) : UITextView Unichar :=
  ⟨text, ⟨text.length, 0⟩⟩

end WeWrite

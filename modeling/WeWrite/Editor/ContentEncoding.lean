import Mathlib.Data.List.TakeWhile
import WeWrite.Editor.Encoding

/-!
# The way of a string through `contentModified`

The sender takes the UTF-8 bytes of a string as a C string; the receiver reads that C string in
its own default encoding.  UTF-8 and the default encoding agree on ASCII and need not agree on
anything else.

Main results:

- Theorem `latin1_reads_iff`: which strings a device whose default encoding is Latin-1 gets back.
- Theorem `content_round_trip_iff`: a string comes back on every device exactly when all its
  units are ASCII characters other than NUL.
- Theorem `localeDevice_extendsAscii`: every such device is one of those that the editor's
  results speak about.
-/

namespace WeWrite

/-! ## The two conversions -/

/-- No surrogate of the string stands outside a pair. -/
def WellFormed : NSString Unichar → Prop
  | [] => True
  | [u] => ¬ isHighSurrogate u ∧ ¬ isLowSurrogate u
  | u :: v :: rest =>
      if isHighSurrogate u ∧ isLowSurrogate v then WellFormed rest
      else ¬ isHighSurrogate u ∧ ¬ isLowSurrogate u ∧ WellFormed (v :: rest)

/-- `UTF8String` of one device: UTF-8 where the string has a UTF-8 form. -/
structure Utf8Conversion where
  utf8String : NSString Unichar → List UInt8
  wellFormed : ∀ s, WellFormed s → utf8String s = utf8Bytes s

/-- An encoding that extends ASCII, as `stringWithCString:encoding:` reads it: `none` is the
`nil` for bytes that it cannot decode. -/
structure CStringEncoding where
  decode : List UInt8 → Option (NSString Unichar)
  ascii : ∀ bytes : List UInt8, (∀ b ∈ bytes, 0 < b.toNat ∧ b.toNat < 0x80) →
    decode bytes = some (bytes.map UInt8.toUInt16)

/-- The bytes of a C string. -/
def cString (bytes : List UInt8) : List UInt8 :=
  bytes.takeWhile (· ≠ 0)

/-- `nil` under the format `%@`: the text `(null)`. -/
def nilDescription : NSString Unichar :=
  [40, 110, 117, 108, 108, 41]

/-- `std::string` of the `UTF8String` of a string. -/
def Utf8Conversion.contentModified (sender : Utf8Conversion) (s : NSString Unichar) :
    List UInt8 :=
  cString (sender.utf8String s)

/-- `stringWithCString:encoding:` of the `c_str()` of the content, as `%@` renders it. -/
def CStringEncoding.stringWithCString (encoding : CStringEncoding) (content : List UInt8) :
    NSString Unichar :=
  (encoding.decode (cString content)).getD nilDescription

/-- ISO Latin-1: every byte is the unit of its value. -/
def latin1 : CStringEncoding where
  decode bytes := some (bytes.map UInt8.toUInt16)
  ascii _ _ := rfl

/-- A string sent by one device comes back on every other, so that any two of them read the same
text, of the length sent. -/
structure RoundTrips (sender : Utf8Conversion) (s : NSString Unichar) : Prop where
  same : ∀ encoding : CStringEncoding,
    encoding.stringWithCString (sender.contentModified s) = s
  agree : ∀ encoding encoding' : CStringEncoding,
    encoding.stringWithCString (sender.contentModified s) =
      encoding'.stringWithCString (sender.contentModified s)
  length : ∀ encoding : CStringEncoding,
    (encoding.stringWithCString (sender.contentModified s)).length = s.length

/-! ## Bytes of units that are no surrogates -/

/-- A string without surrogates is well-formed. -/
theorem wellFormed_of_no_surrogate {s : NSString Unichar}
    (hs : ∀ u ∈ s, ¬ isHighSurrogate u ∧ ¬ isLowSurrogate u) : WellFormed s := by
  fun_induction WellFormed s with
  | case1 => trivial
  | case2 u => exact hs u (by simp)
  | case3 u v rest hpair ih => exact ((hs u (by simp)).1 hpair.1).elim
  | case4 u v rest hpair ih =>
      have hu := hs u (by simp)
      exact ⟨hu.1, hu.2, ih fun w hw => hs w (List.mem_cons_of_mem u hw)⟩

/-- The bytes of a string without surrogates, unit by unit. -/
theorem utf8Bytes_eq_flatMap {s : NSString Unichar} (hs : ∀ u ∈ s, ¬ isHighSurrogate u) :
    utf8Bytes s = s.flatMap fun u => utf8Point u.toNat := by
  fun_induction utf8Bytes s with
  | case1 => rfl
  | case2 u => simp
  | case3 u v rest hpair ih => exact (hs u (by simp) hpair.1).elim
  | case4 u v rest hpair ih =>
      rw [List.flatMap_cons, ih fun w hw => hs w (List.mem_cons_of_mem u hw)]

/-- No byte of a code point between NUL and 256 is zero. -/
theorem utf8Point_ne_zero {point : Nat} (hpos : 0 < point) (hlt : point < 0x100) :
    ∀ b ∈ utf8Point point, b ≠ 0 := by
  intro b hb
  rw [← UInt8.toNat_inj.ne, UInt8.toNat_zero]
  by_cases hascii : point < 0x80
  · rw [utf8Point, if_pos hascii] at hb
    obtain rfl := List.mem_singleton.mp hb
    rw [UInt8.toNat_ofNat']
    omega
  · rw [utf8Point, if_neg hascii, if_pos (by omega)] at hb
    simp only [List.mem_cons, List.not_mem_nil, or_false] at hb
    rcases hb with rfl | rfl
    · rw [UInt8.toNat_ofNat']
      omega
    · rw [UInt8.toNat_ofNat']
      omega

/-- A code point below 256 takes one byte if it is ASCII and two if it is not. -/
theorem length_utf8Point {point : Nat} (hlt : point < 0x100) :
    (utf8Point point).length = if 0x80 ≤ point then 2 else 1 := by
  rw [utf8Point]
  split_ifs with h1 h2 h3
  all_goals first | rfl | omega

/-- The C string of bytes without a zero is all of them. -/
theorem cString_eq_self {bytes : List UInt8} (hbytes : ∀ b ∈ bytes, b ≠ 0) :
    cString bytes = bytes :=
  List.takeWhile_eq_self_iff.mpr (by simpa using hbytes)

theorem ne_zero_of_mem_cString {bytes : List UInt8} {b : UInt8} (hb : b ∈ cString bytes) :
    b ≠ 0 := by
  simpa using List.mem_takeWhile_imp hb

/-! ## Strings below 256 -/

/-- A character of Latin-1 other than NUL. -/
def Latin1Char (u : Unichar) : Prop :=
  0 < u.toNat ∧ u.toNat < 0x100

theorem Latin1Char.no_surrogate {u : Unichar} (hu : Latin1Char u) :
    ¬ isHighSurrogate u ∧ ¬ isLowSurrogate u := by
  have hlt := hu.2
  constructor
  · rintro ⟨hle, -⟩
    omega
  · rintro ⟨hle, -⟩
    omega

theorem AsciiChar.latin1Char {u : Unichar} (hu : AsciiChar u) : Latin1Char u :=
  ⟨hu.1, hu.2.trans (by decide)⟩

/-- The content of a string of Latin-1 characters is their UTF-8 bytes, one after the other. -/
theorem contentModified_eq_flatMap (sender : Utf8Conversion) {s : NSString Unichar}
    (hs : ∀ u ∈ s, Latin1Char u) :
    sender.contentModified s = s.flatMap fun u => utf8Point u.toNat := by
  have hbytes : sender.utf8String s = s.flatMap fun u => utf8Point u.toNat := by
    rw [sender.wellFormed s (wellFormed_of_no_surrogate fun u hu => (hs u hu).no_surrogate),
      utf8Bytes_eq_flatMap fun u hu => (hs u hu).no_surrogate.1]
  rw [Utf8Conversion.contentModified, hbytes]
  apply cString_eq_self
  intro b hb
  rcases List.mem_flatMap.mp hb with ⟨u, hu, hb⟩
  exact utf8Point_ne_zero (hs u hu).1 (hs u hu).2 b hb

/-- It is longer than the string by one byte for each character that is not ASCII. -/
theorem length_flatMap_utf8Point {s : NSString Unichar} (hs : ∀ u ∈ s, Latin1Char u) :
    (s.flatMap fun u => utf8Point u.toNat).length =
      s.length + s.countP fun u => 0x80 ≤ u.toNat := by
  induction s with
  | nil => rfl
  | cons u s ih =>
      have hrest := ih fun v hv => hs v (List.mem_cons_of_mem u hv)
      have hu := length_utf8Point (hs u (by simp)).2
      rw [List.flatMap_cons, List.length_append, hrest, hu, List.countP_cons, List.length_cons]
      simp only [decide_eq_true_eq]
      split_ifs
      · omega
      · omega

/-! ## Which strings come back -/

/-- What a Latin-1 device reads consists of Latin-1 characters. -/
theorem latin1Char_of_mem_latin1 {content : List UInt8} {u : Unichar}
    (hu : u ∈ latin1.stringWithCString content) : Latin1Char u := by
  rcases List.mem_map.mp (show u ∈ (cString content).map UInt8.toUInt16 from hu) with
    ⟨b, hb, rfl⟩
  have hne := ne_zero_of_mem_cString hb
  rw [← UInt8.toNat_inj.ne, UInt8.toNat_zero] at hne
  rw [Latin1Char, UInt8.toNat_toUInt16]
  exact ⟨by omega, b.toNat_lt⟩

/-- The content is a C string already. -/
theorem cString_contentModified (sender : Utf8Conversion) (s : NSString Unichar) :
    cString (sender.contentModified s) = sender.contentModified s :=
  cString_eq_self fun _ hb => ne_zero_of_mem_cString hb

/-- The content of a string of ASCII characters has one byte for each. -/
theorem contentModified_ascii (sender : Utf8Conversion) {s : NSString Unichar}
    (hs : ∀ u ∈ s, AsciiChar u) :
    sender.contentModified s = s.map fun u => UInt8.ofNat u.toNat := by
  rw [contentModified_eq_flatMap sender fun u hu => (hs u hu).latin1Char, List.map_eq_flatMap]
  apply List.flatMap_congr
  intro u hu
  rw [utf8Point, if_pos (hs u hu).2]

/-- ASCII characters come back on every device. -/
theorem stringWithCString_ascii (sender : Utf8Conversion) (encoding : CStringEncoding)
    {s : NSString Unichar} (hs : ∀ u ∈ s, AsciiChar u) :
    encoding.stringWithCString (sender.contentModified s) = s := by
  have hdecode : encoding.decode (sender.contentModified s) =
      some ((sender.contentModified s).map UInt8.toUInt16) := by
    apply encoding.ascii
    intro b hb
    rw [contentModified_ascii sender hs] at hb
    rcases List.mem_map.mp hb with ⟨u, hu, rfl⟩
    have hascii := hs u hu
    rw [UInt8.toNat_ofNat', Nat.mod_eq_of_lt (hascii.2.trans (by decide))]
    exact hascii
  rw [CStringEncoding.stringWithCString, cString_contentModified, hdecode, Option.getD_some,
    contentModified_ascii sender hs, List.map_map]
  conv_rhs => rw [← List.map_id s]
  apply List.map_congr_left
  intro u hu
  exact toUInt16_ofNat_ascii (hs u hu)

/-- A Latin-1 device gets exactly the strings of ASCII characters back. -/
theorem latin1_reads_iff (sender : Utf8Conversion) (s : NSString Unichar) :
    latin1.stringWithCString (sender.contentModified s) = s ↔ ∀ u ∈ s, AsciiChar u := by
  constructor
  · intro hsame
    have hlatin1 : ∀ u ∈ s, Latin1Char u := by
      intro u hu
      rw [← hsame] at hu
      exact latin1Char_of_mem_latin1 hu
    -- one unit is read for each byte, so no character took two bytes
    have hlength : (sender.contentModified s).length = s.length := by
      have hread := congrArg List.length hsame
      rw [CStringEncoding.stringWithCString, cString_contentModified] at hread
      simpa [latin1] using hread
    rw [contentModified_eq_flatMap sender hlatin1, length_flatMap_utf8Point hlatin1] at hlength
    have hnone := List.countP_eq_zero.mp (Nat.add_eq_left.mp hlength)
    intro u hu
    have hlt : ¬ 0x80 ≤ u.toNat := by simpa using hnone u hu
    exact ⟨(hlatin1 u hu).1, by omega⟩
  · exact stringWithCString_ascii sender latin1

/-- A string comes back on every device, whatever its default encoding, exactly when all its
units are ASCII characters other than NUL. -/
theorem content_round_trip_iff (sender : Utf8Conversion) (s : NSString Unichar) :
    RoundTrips sender s ↔ ∀ u ∈ s, AsciiChar u := by
  constructor
  · intro hround
    exact (latin1_reads_iff sender s).mp (hround.same latin1)
  · intro hs
    have hsame : ∀ encoding : CStringEncoding,
        encoding.stringWithCString (sender.contentModified s) = s := fun encoding =>
      stringWithCString_ascii sender encoding hs
    exact ⟨hsame, fun encoding encoding' => by rw [hsame, hsame], fun encoding => by rw [hsame]⟩

/-- The `é` of one device is read as `Ã©` by a Latin-1 device. -/
theorem latin1_reads_two_characters :
    ¬ ∀ (sender : Utf8Conversion) (s : NSString Unichar), RoundTrips sender s := by
  intro h
  have hsame := (h ⟨utf8Bytes, fun _ _ => rfl⟩ [0xE9]).same latin1
  revert hsame
  decide

/-! ## The devices of the editor -/

/-- A device with the given conversions and the given text view. -/
def localeDevice (sender : Utf8Conversion) (encoding : CStringEncoding)
    (selectionAfterSetText takenSelection : NSString Unichar → NSRange → NSRange) :
    Device Unichar UInt8 where
  utf8String := sender.contentModified
  stringWithCString := encoding.stringWithCString
  selectionAfterSetText := selectionAfterSetText
  takenSelection := takenSelection

theorem localeDevice_extendsAscii (sender : Utf8Conversion) (encoding : CStringEncoding)
    (selectionAfterSetText takenSelection : NSString Unichar → NSRange → NSRange) :
    ExtendsAscii (localeDevice sender encoding selectionAfterSetText takenSelection) where
  utf8 u hu := by
    have hone : ∀ v ∈ [u], AsciiChar v := by simpa using hu
    rw [utf8Bytes_ascii hu]
    exact contentModified_ascii sender hone
  ascii u hu := by
    have hone : ∀ v ∈ [u], AsciiChar v := by simpa using hu
    have hread := stringWithCString_ascii sender encoding hone
    rwa [contentModified_ascii sender hone] at hread

end WeWrite

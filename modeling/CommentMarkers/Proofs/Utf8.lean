import CommentMarkers.Proofs.Slices
import CommentMarkers.Text.Encoding

/-!
# Characters in bytes

A character becomes a first byte and bytes that go on with it.  The two can be told apart, so where
a character begins can be seen from a single byte, and bytes can be cut there without harm.

Main results:

- Theorem `exists_encodes`: reading finds a character in its bytes, whatever is behind them.
- Theorem `IsValid.decode`: decoding the bytes of a text and encoding it again gives the same bytes.
- Theorem `IsValid.around`: what is around whole characters is made of whole characters.
- Theorem `IsCharBoundary.slice`: so is what lies between two boundaries of characters.
-/

namespace CommentMarkers.Text

/-! ## Bytes that go on with a character -/

/-- Holds of the bytes that go on with a character. -/
def isContinuation (byte : UInt8) : Bool :=
  0x80 ≤ byte && byte ≤ 0xBF

/-- The byte that carries the last six bits of a number. -/
def continuationByte (number : Nat) : UInt8 :=
  UInt8.ofNat (number % 64 + 128)

/-- The value of such a byte. -/
theorem toNat_continuationByte (number : Nat) :
    (continuationByte number).toNat = number % 64 + 128 := by
  rw [continuationByte, UInt8.toNat_ofNat', Nat.mod_eq_of_lt (by omega)]

/-- Such a byte goes on with a character. -/
theorem isContinuation_continuationByte (number : Nat) :
    isContinuation (continuationByte number) = true := by
  simp only [isContinuation, Bool.and_eq_true, decide_eq_true_eq, UInt8.le_iff_toNat_le,
    toNat_continuationByte]
  exact ⟨Nat.le_add_left _ _, by simp; omega⟩

/-- Reading such a byte puts its six bits behind those that were read before. -/
theorem readFollowers_continuationByte {low high : UInt8} {number : Nat}
    (hlow : low.toNat ≤ number % 64 + 128) (hhigh : number % 64 + 128 ≤ high.toNat)
    (count code : Nat) (rest : Bytes) :
    readFollowers low high (count + 1) code (continuationByte number :: rest) =
      ((readFollowers 0x80 0xBF count (code * 64 + number % 64) rest).1,
        (readFollowers 0x80 0xBF count (code * 64 + number % 64) rest).2 + 1) := by
  have hrange : (low ≤ continuationByte number && continuationByte number ≤ high) = true := by
    simp only [Bool.and_eq_true, decide_eq_true_eq, UInt8.le_iff_toNat_le, toNat_continuationByte]
    exact ⟨hlow, hhigh⟩
  have hbits : (continuationByte number).toNat % 64 = number % 64 := by
    rw [toNat_continuationByte]
    omega
  rw [readFollowers, if_pos hrange, hbits]

/-- The first byte of a character of two bytes. -/
theorem followers_two : ∀ bits < 32, 2 ≤ bits →
    followers (UInt8.ofNat (bits + 192)) = some (1, 0x80, 0xBF) ∧
      leadBits (UInt8.ofNat (bits + 192)) 1 = bits := by
  decide

/-- The first byte of a character of three bytes.  The second byte is in a smaller range where the
character would otherwise be too small for three bytes, or a surrogate. -/
theorem followers_three : ∀ bits < 16,
    followers (UInt8.ofNat (bits + 224)) =
        some (2, if bits = 0 then 0xA0 else 0x80, if bits = 13 then 0x9F else 0xBF) ∧
      leadBits (UInt8.ofNat (bits + 224)) 2 = bits := by
  decide

/-- The first byte of a character of four bytes.  The second byte is in a smaller range where the
character would otherwise be too small for four bytes, or too large for any. -/
theorem followers_four : ∀ bits < 5,
    followers (UInt8.ofNat (bits + 240)) =
        some (3, if bits = 0 then 0x90 else 0x80, if bits = 4 then 0x8F else 0xBF) ∧
      leadBits (UInt8.ofNat (bits + 240)) 3 = bits := by
  decide


/-! ## Single characters -/

/-- The bytes of a character: a byte that does not go on with one, and bytes that do.  Reading finds
the character in them whatever is behind them. -/
structure Encodes (char : Char) (lead : UInt8) (tail : Bytes) : Prop where
  bytes_eq : String.utf8EncodeChar char = lead :: tail
  leads : isContinuation lead = false
  continues : ∀ byte ∈ tail, isContinuation byte = true
  reads : ∀ rest, readChar lead (tail ++ rest) = (some char, tail.length)

/-- A first byte with followers is read with them. -/
theorem readChar_of_followers {lead low high : UInt8} {count : Nat} (hlead : ¬ lead < 0x80)
    (hfollowers : followers lead = some (count, low, high)) (rest : Bytes) :
    readChar lead rest =
      ((readFollowers low high count (leadBits lead count) rest).1.map Char.ofNat,
        (readFollowers low high count (leadBits lead count) rest).2) := by
  rw [readChar, if_neg hlead, hfollowers]

/-- The value of a byte. -/
theorem toNat_ofNat {number : Nat} (hbyte : number < 256) :
    (UInt8.ofNat number).toNat = number := by
  rw [UInt8.toNat_ofNat', Nat.mod_eq_of_lt hbyte]

/-- A byte below or above the range of followers does not go on with a character. -/
theorem isContinuation_eq_false {number : Nat} (hbyte : number < 256)
    (hlead : number < 0x80 ∨ 0xBF < number) : isContinuation (UInt8.ofNat number) = false := by
  simp only [isContinuation, Bool.and_eq_false_iff, decide_eq_false_iff_not, UInt8.le_iff_toNat_le,
    toNat_ofNat hbyte]
  exact hlead.imp Nat.not_le.2 Nat.not_le.2

/-- A small character is a single byte. -/
theorem encodes_one {char : Char} (hsmall : char.toNat ≤ 127) :
    Encodes char (UInt8.ofNat char.toNat) [] where
  bytes_eq := by
    rw [String.utf8EncodeChar]
    exact if_pos hsmall
  leads := isContinuation_eq_false (by omega) (Or.inl (by omega))
  continues := by
    intro byte hbyte
    cases hbyte
  reads := by
    intro rest
    have hlead : UInt8.ofNat char.toNat < 0x80 := by
      rw [UInt8.lt_iff_toNat_lt, toNat_ofNat (by omega)]
      exact Nat.lt_succ_of_le hsmall
    rw [readChar, if_pos hlead, toNat_ofNat (by omega), Char.ofNat_toNat]
    rfl

/-- A character of two bytes. -/
theorem encodes_two {char : Char} (hlarge : 127 < char.toNat) (hsmall : char.toNat ≤ 2047) :
    Encodes char (UInt8.ofNat (char.toNat / 64 % 32 + 192)) [continuationByte char.toNat] where
  bytes_eq := by
    rw [String.utf8EncodeChar]
    exact (if_neg (Nat.not_le.2 hlarge)).trans (if_pos hsmall)
  leads := isContinuation_eq_false (by omega) (Or.inr (by omega))
  continues := by
    intro byte hbyte
    rw [List.mem_singleton.1 hbyte]
    exact isContinuation_continuationByte _
  reads := by
    intro rest
    obtain ⟨hfollowers, hbits⟩ := followers_two (char.toNat / 64 % 32) (by omega) (by omega)
    have hlead : ¬ UInt8.ofNat (char.toNat / 64 % 32 + 192) < 0x80 := by
      rw [UInt8.lt_iff_toNat_lt, toNat_ofNat (by omega)]
      exact Nat.not_lt.2 (by simp)
    have hcode : char.toNat / 64 % 32 * 64 + char.toNat % 64 = char.toNat := by omega
    rw [readChar_of_followers hlead hfollowers, hbits, List.cons_append,
      readFollowers_continuationByte (by simp) (by simp; omega), readFollowers, hcode]
    simp

/-- A character of three bytes. -/
theorem encodes_three {char : Char} (hlarge : 2047 < char.toNat) (hsmall : char.toNat ≤ 65535) :
    Encodes char (UInt8.ofNat (char.toNat / 4096 % 16 + 224))
      [continuationByte (char.toNat / 64), continuationByte char.toNat] where
  bytes_eq := by
    have hmore : 127 < char.toNat := by omega
    rw [String.utf8EncodeChar]
    exact (if_neg (Nat.not_le.2 hmore)).trans
      ((if_neg (Nat.not_le.2 hlarge)).trans (if_pos hsmall))
  leads := isContinuation_eq_false (by omega) (Or.inr (by omega))
  continues := by
    intro byte hbyte
    simp only [List.mem_cons, List.not_mem_nil, or_false] at hbyte
    rcases hbyte with rfl | rfl <;> exact isContinuation_continuationByte _
  reads := by
    intro rest
    have hvalid : char.toNat < 0xD800 ∨ 0xDFFF < char.toNat ∧ char.toNat < 0x110000 := char.valid
    obtain ⟨hfollowers, hbits⟩ := followers_three (char.toNat / 4096 % 16) (by omega)
    have hlead : ¬ UInt8.ofNat (char.toNat / 4096 % 16 + 224) < 0x80 := by
      rw [UInt8.lt_iff_toNat_lt, toNat_ofNat (by omega)]
      exact Nat.not_lt.2 (by simp)
    have hcode : (char.toNat / 4096 % 16 * 64 + char.toNat / 64 % 64) * 64 + char.toNat % 64 =
        char.toNat := by omega
    rw [readChar_of_followers hlead hfollowers, hbits, List.cons_append, List.cons_append,
      readFollowers_continuationByte (by split <;> simp; omega) (by split <;> simp <;> omega),
      readFollowers_continuationByte (by simp) (by simp; omega), readFollowers, hcode]
    simp

/-- A character of four bytes. -/
theorem encodes_four {char : Char} (hlarge : 65535 < char.toNat) :
    Encodes char (UInt8.ofNat (char.toNat / 262144 % 8 + 240))
      [continuationByte (char.toNat / 4096), continuationByte (char.toNat / 64),
        continuationByte char.toNat] where
  bytes_eq := by
    have hmore : 127 < char.toNat := by omega
    have hmost : 2047 < char.toNat := by omega
    rw [String.utf8EncodeChar]
    exact (if_neg (Nat.not_le.2 hmore)).trans
      ((if_neg (Nat.not_le.2 hmost)).trans (if_neg (Nat.not_le.2 hlarge)))
  leads := isContinuation_eq_false (by omega) (Or.inr (by omega))
  continues := by
    intro byte hbyte
    simp only [List.mem_cons, List.not_mem_nil, or_false] at hbyte
    rcases hbyte with rfl | rfl | rfl <;> exact isContinuation_continuationByte _
  reads := by
    intro rest
    have hvalid : char.toNat < 0xD800 ∨ 0xDFFF < char.toNat ∧ char.toNat < 0x110000 := char.valid
    obtain ⟨hfollowers, hbits⟩ := followers_four (char.toNat / 262144 % 8) (by omega)
    have hlead : ¬ UInt8.ofNat (char.toNat / 262144 % 8 + 240) < 0x80 := by
      rw [UInt8.lt_iff_toNat_lt, toNat_ofNat (by omega)]
      exact Nat.not_lt.2 (by simp)
    have hcode : ((char.toNat / 262144 % 8 * 64 + char.toNat / 4096 % 64) * 64 +
        char.toNat / 64 % 64) * 64 + char.toNat % 64 = char.toNat := by omega
    rw [readChar_of_followers hlead hfollowers, hbits, List.cons_append, List.cons_append,
      List.cons_append,
      readFollowers_continuationByte (by split <;> simp; omega) (by split <;> simp <;> omega),
      readFollowers_continuationByte (by simp) (by simp; omega),
      readFollowers_continuationByte (by simp) (by simp; omega), readFollowers, hcode]
    simp

/-- Every character has bytes that are read back as this character. -/
theorem exists_encodes (char : Char) : ∃ lead tail, Encodes char lead tail := by
  by_cases hone : char.toNat ≤ 127
  · exact ⟨_, _, encodes_one hone⟩
  by_cases htwo : char.toNat ≤ 2047
  · exact ⟨_, _, encodes_two (by omega) htwo⟩
  by_cases hthree : char.toNat ≤ 65535
  · exact ⟨_, _, encodes_three (by omega) hthree⟩
  · exact ⟨_, _, encodes_four (by omega)⟩

/-! ## Whole characters -/

/-- Holds of bytes that are a text, which means that they are whole characters. -/
def IsValid (bytes : Bytes) : Prop :=
  ∃ text, bytes = encode text

/-- The bytes of characters are a text. -/
theorem isValid_flatMap (chars : List Char) : IsValid (chars.flatMap String.utf8EncodeChar) :=
  ⟨String.ofList chars, by rw [encode, String.toList_ofList]⟩

/-- A text is made of characters. -/
theorem IsValid.exists_chars {bytes : Bytes} (hvalid : IsValid bytes) :
    ∃ chars : List Char, bytes = chars.flatMap String.utf8EncodeChar := by
  obtain ⟨text, rfl⟩ := hvalid
  exact ⟨text.toList, rfl⟩

/-- No bytes are a text. -/
theorem isValid_nil : IsValid [] :=
  isValid_flatMap []

/-- The bytes of a text are a text. -/
theorem isValid_encode (text : String) : IsValid (encode text) :=
  ⟨text, rfl⟩

/-- Bytes below those that need others to go on with them are a text. -/
theorem isValid_ascii {bytes : Bytes} (hascii : ∀ byte ∈ bytes, byte.toNat ≤ 127) :
    IsValid bytes := by
  refine ⟨String.ofList (bytes.map fun byte => Char.ofNat byte.toNat), ?_⟩
  rw [encode, String.toList_ofList]
  induction bytes with
  | nil => rfl
  | cons byte rest ih =>
      obtain ⟨hbyte, hrest⟩ := List.forall_mem_cons.1 hascii
      have hchar : byte.toNat.isValidChar := Or.inl (by omega)
      have hnumber : (Char.ofNat byte.toNat).toNat = byte.toNat := by
        rw [Char.ofNat, dif_pos hchar]
        rfl
      rw [List.map_cons, List.flatMap_cons, ← ih hrest,
        (encodes_one (by rw [hnumber]; exact hbyte)).bytes_eq, hnumber, UInt8.ofNat_toNat]
      rfl

/-- Characters in bytes are read back, whatever is behind them. -/
theorem decodeChars_flatMap_append (chars : List Char) (back : Bytes) :
    decodeChars (chars.flatMap String.utf8EncodeChar ++ back) = chars ++ decodeChars back := by
  induction chars with
  | nil => rfl
  | cons char rest ih =>
      obtain ⟨lead, tail, hchar⟩ := exists_encodes char
      rw [List.flatMap_cons, hchar.bytes_eq, List.append_assoc, List.cons_append, decodeChars,
        hchar.reads]
      simp only [List.drop_left, ih, Option.getD_some, List.cons_append]

/-- Decoding is the inverse of encoding. -/
theorem decodeChars_flatMap (chars : List Char) :
    decodeChars (chars.flatMap String.utf8EncodeChar) = chars := by
  have hchars := decodeChars_flatMap_append chars []
  rwa [List.append_nil, decodeChars, List.append_nil] at hchars

/-- The bytes of a text are decoded to this text. -/
theorem decode_encode (text : String) : decode (encode text) = text := by
  rw [decode, encode, decodeChars_flatMap, String.ofList_toList]

namespace IsValid

variable {front middle back bytes : Bytes}

/-- A text is decoded without replacing anything. -/
theorem decode (hvalid : IsValid bytes) : encode (Text.decode bytes) = bytes := by
  obtain ⟨chars, rfl⟩ := hvalid.exists_chars
  rw [Text.decode, decodeChars_flatMap, encode, String.toList_ofList]

/-- Two texts behind each other are a text. -/
theorem append (hfront : IsValid front) (hback : IsValid back) : IsValid (front ++ back) := by
  obtain ⟨first, rfl⟩ := hfront
  obtain ⟨second, rfl⟩ := hback
  exact ⟨first ++ second, (encode_append first second).symm⟩

/-- A text behind which a longer one goes on is followed by a text. -/
theorem of_append_right (hvalid : IsValid (front ++ back)) (hfront : IsValid front) :
    IsValid back := by
  obtain ⟨chars, hchars⟩ := hvalid.exists_chars
  obtain ⟨own, rfl⟩ := hfront.exists_chars
  clear hvalid hfront
  induction own generalizing chars with
  | nil =>
      rw [List.flatMap_nil, List.nil_append] at hchars
      rw [hchars]
      exact isValid_flatMap chars
  | cons char rest ih =>
      obtain ⟨lead, tail, hchar⟩ := exists_encodes char
      rw [List.flatMap_cons, hchar.bytes_eq, List.cons_append, List.cons_append,
        List.append_assoc] at hchars
      cases chars with
      | nil => cases hchars
      | cons other chars =>
          obtain ⟨lead', tail', hother⟩ := exists_encodes other
          rw [List.flatMap_cons, hother.bytes_eq, List.cons_append] at hchars
          obtain ⟨rfl, htails⟩ := List.cons.inj hchars
          -- Both characters are read from the same bytes.
          have hread := hother.reads (chars.flatMap String.utf8EncodeChar)
          rw [← htails, hchar.reads] at hread
          exact ih chars (List.append_inj htails (Prod.mk.inj hread).2).2

/-- A text can be cut in front of a byte that does not go on with a character. -/
theorem cut (hvalid : IsValid (front ++ back))
    (hback : ∀ byte ∈ back.head?, isContinuation byte = false) : IsValid front ∧ IsValid back := by
  obtain ⟨chars, hchars⟩ := hvalid.exists_chars
  induction chars generalizing front with
  | nil =>
      obtain ⟨rfl, rfl⟩ := List.append_eq_nil_iff.1 hchars
      exact ⟨isValid_nil, isValid_nil⟩
  | cons char rest ih =>
      obtain ⟨lead, tail, hchar⟩ := exists_encodes char
      cases front with
      | nil => exact ⟨isValid_nil, hvalid⟩
      | cons byte front =>
          rw [List.flatMap_cons, hchar.bytes_eq, List.cons_append, List.cons_append] at hchars
          obtain ⟨rfl, hrest⟩ := List.cons.inj hchars
          have hinside : ∃ more, front = tail ++ more ∧
              more ++ back = rest.flatMap String.utf8EncodeChar := by
            rcases List.append_eq_append_iff.1 hrest with ⟨more, rfl, rfl⟩ | ⟨more, rfl, hmore⟩
            · cases more with
              | nil => exact ⟨[], by simp, rfl⟩
              | cons other more =>
                  have hgoes := hchar.continues other (by simp)
                  rw [hback other rfl] at hgoes
                  cases hgoes
            · exact ⟨more, rfl, hmore.symm⟩
          obtain ⟨more, rfl, hmore⟩ := hinside
          obtain ⟨hfront, hvalidBack⟩ := ih (hmore ▸ isValid_flatMap rest) hmore
          have hone : IsValid (byte :: tail) := by
            rw [← hchar.bytes_eq]
            simpa using isValid_flatMap [char]
          exact ⟨hone.append hfront, hvalidBack⟩

/-- The first byte of a text does not go on with a character. -/
theorem isContinuation_head (hvalid : IsValid bytes) :
    ∀ byte ∈ bytes.head?, isContinuation byte = false := by
  obtain ⟨chars, rfl⟩ := hvalid.exists_chars
  intro byte hbyte
  cases chars with
  | nil => cases hbyte
  | cons char rest =>
      obtain ⟨lead, tail, hchar⟩ := exists_encodes char
      rw [List.flatMap_cons, hchar.bytes_eq] at hbyte
      cases hbyte
      exact hchar.leads

/-- What a text is in front of at the end of a text is a text. -/
theorem of_append_left (hvalid : IsValid (front ++ back)) (hback : IsValid back) :
    IsValid front :=
  (hvalid.cut hback.isContinuation_head).1

/-- What is around a part of a text that is a text is made of texts. -/
theorem around (hvalid : IsValid (front ++ (middle ++ back))) (hmiddle : IsValid middle)
    (hne : middle ≠ []) : IsValid front ∧ IsValid back := by
  have hhead : ∀ byte ∈ (middle ++ back).head?, isContinuation byte = false := by
    cases middle with
    | nil => exact absurd rfl hne
    | cons byte middle => exact hmiddle.isContinuation_head
  obtain ⟨hfront, hrest⟩ := hvalid.cut hhead
  exact ⟨hfront, hrest.of_append_right hmiddle⟩

end IsValid

/-! ## Boundaries -/

/-- Holds of the offsets between two characters of a text, and of those at its ends. -/
def IsCharBoundary (bytes : Bytes) (offset : Nat) : Prop :=
  ∃ front back, bytes = front ++ back ∧ offset = front.length ∧ IsValid front ∧ IsValid back

/-- What lies between two boundaries is a text. -/
theorem IsCharBoundary.slice {bytes : Bytes} {start stop : Nat}
    (hstart : IsCharBoundary bytes start) (hstop : IsCharBoundary bytes stop) :
    IsValid (Bytes.slice bytes start stop) := by
  obtain ⟨front, rest, rfl, rfl, hfront, -⟩ := hstart
  obtain ⟨longer, back, hbytes, rfl, hlonger, -⟩ := hstop
  rcases List.append_eq_append_iff.1 hbytes with ⟨middle, rfl, rfl⟩ | ⟨more, rfl, -⟩
  · rw [List.length_append, slice_middle]
    exact hlonger.of_append_right hfront
  · rw [Bytes.slice, Nat.sub_eq_zero_of_le (by simp), List.take_zero]
    exact isValid_nil

end CommentMarkers.Text

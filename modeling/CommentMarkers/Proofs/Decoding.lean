import CommentMarkers.Proofs.Utf8
import Mathlib.Data.List.Induction

/-!
# Decoding bytes

Reading accepts the bytes of a character only, so the strict decoder accepts exactly the bytes of
texts.  The lenient decoder makes something of all bytes.  A byte of ASCII belongs to no longer
character, so it is decoded alone and cuts the bytes into parts that are decoded alone as well.

Main results:

- Theorem `encodedBy_of_readChar`: a character that is read is read from its own bytes.
- Theorem `decodeChars?_eq_some_iff`: the strict decoder is the inverse of the encoder.
- Theorem `isSingleChar_iff`: what the bytes of exactly one character are.
- Theorem `decodeChars_ascii`: a byte of ASCII is decoded alone.
-/

namespace CommentMarkers.Text

/-! ## Reading characters -/

/-- The first byte of a character of several bytes is in one of three ranges, one for each number
of followers. -/
theorem lead_cases {lead low high : UInt8} {count : Nat}
    (hfollowers : followers lead = some (count, low, high)) :
    (∃ bits < 32, 2 ≤ bits ∧ lead = UInt8.ofNat (bits + 192)) ∨
      (∃ bits < 16, lead = UInt8.ofNat (bits + 224)) ∨
        ∃ bits < 5, lead = UInt8.ofNat (bits + 240) := by
  have hlead : 194 ≤ lead.toNat ∧ lead.toNat ≤ 244 := by
    simp only [followers, Bool.and_eq_true, decide_eq_true_eq, beq_iff_eq,
      UInt8.le_iff_toNat_le, ← UInt8.toNat_inj] at hfollowers
    grind
  have hbits : ∀ base ≤ lead.toNat, lead = UInt8.ofNat (lead.toNat - base + base) := by
    intro base hbase
    rw [Nat.sub_add_cancel hbase, UInt8.ofNat_toNat]
  by_cases htwo : lead.toNat ≤ 223
  · exact Or.inl ⟨_, by omega, by omega, hbits 192 (by omega)⟩
  by_cases hthree : lead.toNat ≤ 239
  · exact Or.inr (Or.inl ⟨_, by omega, hbits 224 (by omega)⟩)
  · exact Or.inr (Or.inr ⟨_, by omega, hbits 240 (by omega)⟩)

/-- A follower that is read is in its range, and the others are read behind it. -/
theorem exists_of_readFollowers {low high : UInt8} {count code number read : Nat} {bytes : Bytes}
    (hread : readFollowers low high (count + 1) code bytes = (some number, read)) :
    ∃ byte rest more, bytes = byte :: rest ∧ read = more + 1 ∧
      low.toNat ≤ byte.toNat ∧ byte.toNat ≤ high.toNat ∧
        readFollowers 0x80 0xBF count (code * 64 + byte.toNat % 64) rest = (some number, more) := by
  cases bytes with
  | nil => cases hread
  | cons byte rest =>
      rw [readFollowers] at hread
      split at hread
      · next hrange =>
          simp only [Bool.and_eq_true, decide_eq_true_eq, UInt8.le_iff_toNat_le] at hrange
          obtain ⟨hnumber, hmore⟩ := Prod.mk.inj hread
          exact ⟨byte, rest, _, rfl, hmore.symm, hrange.1, hrange.2, Prod.ext hnumber rfl⟩
      · cases hread

/-- Behind the last follower the number is complete. -/
theorem eq_of_readFollowers_zero {low high : UInt8} {code number read : Nat} {bytes : Bytes}
    (hread : readFollowers low high 0 code bytes = (some number, read)) :
    number = code ∧ read = 0 := by
  rw [readFollowers] at hread
  obtain ⟨hnumber, hzero⟩ := Prod.mk.inj hread
  exact ⟨(Option.some.inj hnumber).symm, hzero.symm⟩

/-- A byte in the range of followers carries the last six bits of a number if they are its own. -/
theorem eq_continuationByte {byte : UInt8} {number : Nat} (hlow : 128 ≤ byte.toNat)
    (hhigh : byte.toNat ≤ 191) (hbits : number % 64 = byte.toNat % 64) :
    byte = continuationByte number := by
  rw [← UInt8.toNat_inj, toNat_continuationByte]
  omega

/-- A number outside the surrogates is the number of a character. -/
theorem toNat_charOfNat {number : Nat}
    (hvalid : number < 0xD800 ∨ 0xDFFF < number ∧ number < 0x110000) :
    (Char.ofNat number).toNat = number := by
  have hchar : number.isValidChar := hvalid
  rw [Char.ofNat, dif_pos hchar]
  rfl

/-- Holds if the bytes begin with the bytes of a character behind its first one, and counts them. -/
def EncodedBy (char : Char) (lead : UInt8) (rest : Bytes) (read : Nat) : Prop :=
  ∃ tail behind, rest = tail ++ behind ∧ read = tail.length ∧
    String.utf8EncodeChar char = lead :: tail

section Followers

variable {rest : Bytes} {bits number read : Nat}

/-- What is read with one follower. -/
theorem encodedBy_two (hbits : bits < 32) (hlow : 2 ≤ bits)
    (hread : readFollowers 0x80 0xBF 1 bits rest = (some number, read)) :
    EncodedBy (Char.ofNat number) (UInt8.ofNat (bits + 192)) rest read := by
  obtain ⟨first, rest, more, rfl, rfl, hfirst, hfirst', hread⟩ := exists_of_readFollowers hread
  obtain ⟨rfl, rfl⟩ := eq_of_readFollowers_zero hread
  have hchar : (Char.ofNat (bits * 64 + first.toNat % 64)).toNat = bits * 64 + first.toNat % 64 :=
    toNat_charOfNat (by omega)
  refine ⟨[first], rest, rfl, rfl, ?_⟩
  rw [(encodes_two (by omega) (by omega)).bytes_eq, hchar,
    ← eq_continuationByte hfirst hfirst' (by omega)]
  congr 2
  omega

/-- What is read with two followers. -/
theorem encodedBy_three (hbits : bits < 16)
    (hread : readFollowers (if bits = 0 then 0xA0 else 0x80) (if bits = 13 then 0x9F else 0xBF) 2
      bits rest = (some number, read)) :
    EncodedBy (Char.ofNat number) (UInt8.ofNat (bits + 224)) rest read := by
  obtain ⟨first, rest, more, rfl, rfl, hfirst, hfirst', hread⟩ := exists_of_readFollowers hread
  obtain ⟨second, rest, more, rfl, rfl, hsecond, hsecond', hread⟩ := exists_of_readFollowers hread
  obtain ⟨rfl, rfl⟩ := eq_of_readFollowers_zero hread
  have hrange : 128 ≤ first.toNat ∧ first.toNat ≤ 191 ∧ (bits = 0 → 160 ≤ first.toNat) ∧
      (bits = 13 → first.toNat ≤ 159) := by
    rw [apply_ite UInt8.toNat] at hfirst hfirst'
    simp at hfirst hfirst'
    grind
  have hvalid : (bits * 64 + first.toNat % 64) * 64 + second.toNat % 64 < 0xD800 ∨
      0xDFFF < (bits * 64 + first.toNat % 64) * 64 + second.toNat % 64 ∧
        (bits * 64 + first.toNat % 64) * 64 + second.toNat % 64 < 0x110000 := by
    omega
  have hchar := toNat_charOfNat hvalid
  refine ⟨[first, second], rest, rfl, rfl, ?_⟩
  rw [(encodes_three (by omega) (by omega)).bytes_eq, hchar,
    ← eq_continuationByte hrange.1 hrange.2.1 (by omega),
    ← eq_continuationByte hsecond hsecond' (by omega)]
  congr 2
  omega

/-- What is read with three followers. -/
theorem encodedBy_four (hbits : bits < 5)
    (hread : readFollowers (if bits = 0 then 0x90 else 0x80) (if bits = 4 then 0x8F else 0xBF) 3
      bits rest = (some number, read)) :
    EncodedBy (Char.ofNat number) (UInt8.ofNat (bits + 240)) rest read := by
  obtain ⟨first, rest, more, rfl, rfl, hfirst, hfirst', hread⟩ := exists_of_readFollowers hread
  obtain ⟨second, rest, more, rfl, rfl, hsecond, hsecond', hread⟩ := exists_of_readFollowers hread
  obtain ⟨third, rest, more, rfl, rfl, hthird, hthird', hread⟩ := exists_of_readFollowers hread
  obtain ⟨rfl, rfl⟩ := eq_of_readFollowers_zero hread
  have hrange : 128 ≤ first.toNat ∧ first.toNat ≤ 191 ∧ (bits = 0 → 144 ≤ first.toNat) ∧
      (bits = 4 → first.toNat ≤ 143) := by
    rw [apply_ite UInt8.toNat] at hfirst hfirst'
    simp at hfirst hfirst'
    grind
  have hvalid : ((bits * 64 + first.toNat % 64) * 64 + second.toNat % 64) * 64 +
      third.toNat % 64 < 0xD800 ∨
      0xDFFF < ((bits * 64 + first.toNat % 64) * 64 + second.toNat % 64) * 64 +
          third.toNat % 64 ∧
        ((bits * 64 + first.toNat % 64) * 64 + second.toNat % 64) * 64 +
          third.toNat % 64 < 0x110000 := by
    omega
  have hchar := toNat_charOfNat hvalid
  refine ⟨[first, second, third], rest, rfl, rfl, ?_⟩
  rw [(encodes_four (by omega)).bytes_eq, hchar,
    ← eq_continuationByte hrange.1 hrange.2.1 (by omega),
    ← eq_continuationByte hsecond hsecond' (by omega),
    ← eq_continuationByte hthird hthird' (by omega)]
  congr 2
  omega

end Followers

/-- A character that is read is read from its own bytes. -/
theorem encodedBy_of_readChar {lead : UInt8} {rest : Bytes} {char : Char} {read : Nat}
    (hread : readChar lead rest = (some char, read)) :
    EncodedBy char lead rest read := by
  by_cases hascii : lead < 0x80
  · rw [readChar, if_pos hascii] at hread
    obtain ⟨hchar, rfl⟩ := Prod.mk.inj hread
    cases hchar
    have hsmall : lead.toNat < 128 := UInt8.lt_iff_toNat_lt.1 hascii
    have hnumber : (Char.ofNat lead.toNat).toNat = lead.toNat := toNat_charOfNat (by omega)
    refine ⟨[], rest, rfl, rfl, ?_⟩
    rw [(encodes_one (by omega)).bytes_eq, hnumber, UInt8.ofNat_toNat]
  · cases hfollowers : followers lead with
    | none =>
        rw [readChar, if_neg hascii, hfollowers] at hread
        cases hread
    | some range =>
        obtain ⟨count, low, high⟩ := range
        rw [readChar_of_followers hascii hfollowers] at hread
        obtain ⟨hchar, rfl⟩ := Prod.mk.inj hread
        obtain ⟨number, hnumber, rfl⟩ := Option.map_eq_some_iff.1 hchar
        rcases lead_cases hfollowers with ⟨bits, hbits, hlow, rfl⟩ | ⟨bits, hbits, rfl⟩ |
          ⟨bits, hbits, rfl⟩
        · obtain ⟨hrange, hlead⟩ := followers_two bits hbits hlow
          cases hfollowers.symm.trans hrange
          rw [hlead] at hnumber ⊢
          exact encodedBy_two hbits hlow (Prod.ext hnumber rfl)
        · obtain ⟨hrange, hlead⟩ := followers_three bits hbits
          cases hfollowers.symm.trans hrange
          rw [hlead] at hnumber ⊢
          exact encodedBy_three hbits (Prod.ext hnumber rfl)
        · obtain ⟨hrange, hlead⟩ := followers_four bits hbits
          cases hfollowers.symm.trans hrange
          rw [hlead] at hnumber ⊢
          exact encodedBy_four hbits (Prod.ext hnumber rfl)

/-- The first character is what is read at the beginning, and the others are decoded behind it. -/
theorem decodeChars_cons (lead : UInt8) (rest : Bytes) :
    decodeChars (lead :: rest) = (readChar lead rest).1.getD replacement ::
      decodeChars (rest.drop (readChar lead rest).2) := by
  rw [decodeChars]

/-- No bytes are decoded to no characters. -/
@[simp]
theorem decodeChars_nil : decodeChars [] = [] := by
  rw [decodeChars]

/-! ## Decoding strictly -/

/-- The strict decoder accepts the bytes of texts only, and is the inverse of the encoder. -/
theorem decodeChars?_eq_some_iff {bytes : Bytes} {chars : List Char} :
    decodeChars? bytes = some chars ↔ bytes = chars.flatMap String.utf8EncodeChar := by
  constructor
  · intro hdecoded
    fun_induction decodeChars? bytes generalizing chars with
    | case1 =>
        cases hdecoded
        rfl
    | case2 lead rest char read hread ih =>
        obtain ⟨more, hmore, rfl⟩ := Option.map_eq_some_iff.1 hdecoded
        obtain ⟨tail, behind, rfl, rfl, hchar⟩ := encodedBy_of_readChar hread
        rw [List.drop_left] at ih hmore
        rw [List.flatMap_cons, hchar, ← ih hmore, List.cons_append]
    | case3 => cases hdecoded
  · rintro rfl
    induction chars with
    | nil => rw [List.flatMap_nil, decodeChars?]
    | cons char rest ih =>
        obtain ⟨lead, tail, hchar⟩ := exists_encodes char
        rw [List.flatMap_cons, hchar.bytes_eq, List.cons_append, decodeChars?, hchar.reads]
        simp only [List.drop_left, ih, Option.map_some]

/-- The bytes of exactly one character are those that the encoder makes of one. -/
theorem isSingleChar_iff {bytes : Bytes} :
    isSingleChar bytes = true ↔ ∃ char, bytes = String.utf8EncodeChar char := by
  rw [isSingleChar, Option.any_eq_true]
  constructor
  · rintro ⟨chars, hdecoded, hlength⟩
    obtain ⟨char, rfl⟩ := List.length_eq_one_iff.1 (beq_iff_eq.1 hlength)
    refine ⟨char, ?_⟩
    rw [decodeChars?_eq_some_iff.1 hdecoded, List.flatMap_cons, List.flatMap_nil, List.append_nil]
  · rintro ⟨char, rfl⟩
    refine ⟨[char], decodeChars?_eq_some_iff.2 ?_, rfl⟩
    rw [List.flatMap_cons, List.flatMap_nil, List.append_nil]

/-! ## Bytes of ASCII -/

section Ascii

variable {byte lead low : UInt8}

/-- A byte of ASCII is no follower, and so reading followers ends in front of it. -/
theorem readFollowers_ascii (hbyte : byte.toNat < 128) (hlow : 128 ≤ low.toNat) (high : UInt8)
    (count code : Nat) (front back : Bytes) :
    readFollowers low high count code (front ++ byte :: back) =
        readFollowers low high count code front ∧
      (readFollowers low high count code front).2 ≤ front.length := by
  induction front generalizing low high count code with
  | nil =>
      cases count with
      | zero => exact ⟨rfl, Nat.le_refl _⟩
      | succ count =>
          have hrange : ¬ (low ≤ byte && byte ≤ high) = true := by
            simp only [Bool.and_eq_true, decide_eq_true_eq, UInt8.le_iff_toNat_le]
            omega
          have hnone : readFollowers low high (count + 1) code (byte :: back) = (none, 0) :=
            if_neg hrange
          rw [List.nil_append, hnone]
          exact ⟨rfl, Nat.le_refl _⟩
  | cons first rest ih =>
      cases count with
      | zero => exact ⟨rfl, Nat.zero_le _⟩
      | succ count =>
          have hnext : 128 ≤ (0x80 : UInt8).toNat := by simp
          obtain ⟨hsame, hle⟩ := ih hnext 0xBF count (code * 64 + first.toNat % 64)
          rw [List.cons_append, readFollowers, readFollowers, hsame]
          split
          · exact ⟨rfl, Nat.succ_le_succ hle⟩
          · exact ⟨rfl, Nat.zero_le _⟩

/-- Followers are no bytes of ASCII. -/
theorem low_of_followers {high : UInt8} {count : Nat}
    (hfollowers : followers lead = some (count, low, high)) : 128 ≤ low.toNat := by
  rcases lead_cases hfollowers with ⟨bits, hbits, hmin, rfl⟩ | ⟨bits, hbits, rfl⟩ |
    ⟨bits, hbits, rfl⟩
  · cases hfollowers.symm.trans (followers_two bits hbits hmin).1
    decide
  · cases hfollowers.symm.trans (followers_three bits hbits).1
    split <;> decide
  · cases hfollowers.symm.trans (followers_four bits hbits).1
    split <;> decide

/-- Reading a character ends in front of a byte of ASCII. -/
theorem readChar_ascii (hbyte : byte.toNat < 128) (lead : UInt8) (front back : Bytes) :
    readChar lead (front ++ byte :: back) = readChar lead front ∧
      (readChar lead front).2 ≤ front.length := by
  by_cases hlead : lead < 0x80
  · simp only [readChar, if_pos hlead]
    exact ⟨trivial, Nat.zero_le _⟩
  · cases hfollowers : followers lead with
    | none =>
        simp only [readChar, if_neg hlead, hfollowers]
        exact ⟨trivial, Nat.zero_le _⟩
    | some range =>
        obtain ⟨count, low, high⟩ := range
        obtain ⟨hsame, hle⟩ := readFollowers_ascii hbyte (low_of_followers hfollowers) high count
          (leadBits lead count) front back
        rw [readChar_of_followers hlead hfollowers, readChar_of_followers hlead hfollowers, hsame]
        exact ⟨rfl, hle⟩

/-- A byte of ASCII is decoded alone, and so are the bytes on its two sides. -/
theorem decodeChars_ascii (hbyte : byte.toNat < 128) (front back : Bytes) :
    decodeChars (front ++ byte :: back) =
      decodeChars front ++ Char.ofNat byte.toNat :: decodeChars back := by
  fun_induction decodeChars front with
  | case1 =>
      have hread : readChar byte back = (some (Char.ofNat byte.toNat), 0) :=
        if_pos (UInt8.lt_iff_toNat_lt.2 hbyte)
      rw [List.nil_append, decodeChars, hread]
      rfl
  | case2 lead rest char read hread ih =>
      obtain ⟨hsame, hle⟩ := readChar_ascii hbyte lead rest back
      rw [hread] at hsame hle
      rw [List.cons_append, decodeChars, hsame]
      simp only
      rw [List.drop_append_of_le_length hle, ih, List.cons_append]

end Ascii

/-! ## Blanks -/

/-- The blanks of ASCII among the characters. -/
def isAsciiBlank (char : Char) : Bool :=
  char.toNat < 128 && Bytes.isBlank (UInt8.ofNat char.toNat)

/-- Drops the blanks of ASCII at both ends. -/
def trimChars (chars : List Char) : List Char :=
  ((chars.dropWhile isAsciiBlank).reverse.dropWhile isAsciiBlank).reverse

/-- A blank is a byte of ASCII. -/
theorem toNat_lt_of_isBlank {byte : UInt8} (hblank : Bytes.isBlank byte = true) :
    byte.toNat < 128 := by
  simp only [Bytes.isBlank, Bytes.space, Bytes.tab, Bytes.carriageReturn, Bool.or_eq_true,
    beq_iff_eq, Bool.and_eq_true, decide_eq_true_eq, UInt8.le_iff_toNat_le,
    ← UInt8.toNat_inj] at hblank
  simp at hblank
  omega

/-- A blank is decoded to a blank. -/
theorem isAsciiBlank_ofNat {byte : UInt8} (hblank : Bytes.isBlank byte = true) :
    isAsciiBlank (Char.ofNat byte.toNat) = true := by
  have hbyte := toNat_lt_of_isBlank hblank
  rw [isAsciiBlank, toNat_charOfNat (by omega), UInt8.ofNat_toNat, hblank]
  simpa using hbyte

/-- Only a blank is encoded to a blank. -/
theorem isBlank_of_encoding {char : Char} {lead : UInt8} {tail : Bytes}
    (hchar : String.utf8EncodeChar char = lead :: tail) (hblank : isAsciiBlank char = true) :
    tail = [] ∧ Bytes.isBlank lead = true := by
  simp only [isAsciiBlank, Bool.and_eq_true, decide_eq_true_eq] at hblank
  rw [(encodes_one (by omega)).bytes_eq] at hchar
  obtain ⟨rfl, rfl⟩ := List.cons.inj hchar
  exact ⟨rfl, hblank.2⟩

/-- What a blank is decoded from is a blank. -/
theorem isBlank_of_readChar {lead : UInt8} {rest : Bytes}
    (hblank : isAsciiBlank ((readChar lead rest).1.getD replacement) = true) :
    (readChar lead rest).2 = 0 ∧ Bytes.isBlank lead = true := by
  cases hread : readChar lead rest with
  | mk char read =>
      rw [hread] at hblank
      cases char with
      | none =>
          have hnot : isAsciiBlank replacement = false := by decide
          rw [Option.getD_none, hnot] at hblank
          cases hblank
      | some char =>
          obtain ⟨tail, behind, rfl, rfl, hchar⟩ := encodedBy_of_readChar hread
          obtain ⟨rfl, hlead⟩ := isBlank_of_encoding hchar hblank
          exact ⟨rfl, hlead⟩

/-- Where decoding ends with a blank, the bytes do. -/
theorem isBlank_getLast {bytes : Bytes} :
    ∀ char ∈ (decodeChars bytes).getLast?, isAsciiBlank char = true →
      ∃ byte ∈ bytes.getLast?, Bytes.isBlank byte = true := by
  induction bytes using decodeChars.induct with
  | case1 => simp
  | case2 lead rest own read hread ih =>
      intro char hchar hblank
      rw [decodeChars_cons, hread] at hchar
      cases hbehind : rest.drop read with
      | nil =>
          -- The last character is the only one, and its bytes are all of them.
          rw [hbehind, decodeChars_nil] at hchar
          cases hchar
          have hlead : (readChar lead rest).2 = 0 ∧ Bytes.isBlank lead = true :=
            isBlank_of_readChar (by rwa [hread])
          rw [hread] at hlead
          obtain ⟨rfl, hlead⟩ := hlead
          rw [List.drop_zero] at hbehind
          exact ⟨lead, by rw [hbehind]; rfl, hlead⟩
      | cons byte more =>
          rw [hbehind, decodeChars_cons, List.getLast?_cons_cons, ← decodeChars_cons,
            ← hbehind] at hchar
          obtain ⟨last, hlast, hblank⟩ := ih char hchar hblank
          refine ⟨last, ?_, hblank⟩
          rw [← List.take_append_drop read rest, ← List.cons_append, List.getLast?_append, hlast]
          rfl

/-- Dropping blanks in front commutes with decoding. -/
theorem decodeChars_dropWhile (text : Bytes) :
    decodeChars (text.dropWhile Bytes.isBlank) = (decodeChars text).dropWhile isAsciiBlank := by
  induction text with
  | nil => rw [List.dropWhile_nil, decodeChars_nil, List.dropWhile_nil]
  | cons byte rest ih =>
      by_cases hblank : Bytes.isBlank byte = true
      · have hbyte := decodeChars_ascii (toNat_lt_of_isBlank hblank) [] rest
        rw [List.nil_append, decodeChars_nil, List.nil_append] at hbyte
        rw [List.dropWhile_cons_of_pos hblank, ih, hbyte,
          List.dropWhile_cons_of_pos (isAsciiBlank_ofNat hblank)]
      · have hchar : ¬ isAsciiBlank ((readChar byte rest).1.getD replacement) = true :=
          fun hchar => hblank (isBlank_of_readChar hchar).2
        rw [List.dropWhile_cons_of_neg hblank, decodeChars_cons, List.dropWhile_cons_of_neg hchar]

/-- Dropping blanks at the end commutes with decoding. -/
theorem decodeChars_dropEndWhile (text : Bytes) :
    decodeChars (Bytes.dropEndWhile Bytes.isBlank text) =
      ((decodeChars text).reverse.dropWhile isAsciiBlank).reverse := by
  induction text using List.reverseRecOn with
  | nil =>
      rw [Bytes.dropEndWhile, List.reverse_nil, List.dropWhile_nil, List.reverse_nil,
        decodeChars_nil, List.reverse_nil, List.dropWhile_nil, List.reverse_nil]
  | append_singleton front byte ih =>
      by_cases hblank : Bytes.isBlank byte = true
      · rw [Bytes.dropEndWhile, List.reverse_append, List.reverse_singleton,
          List.singleton_append, List.dropWhile_cons_of_pos hblank, ← Bytes.dropEndWhile, ih,
          decodeChars_ascii (toNat_lt_of_isBlank hblank), decodeChars_nil, List.reverse_append,
          List.reverse_singleton, List.singleton_append,
          List.dropWhile_cons_of_pos (isAsciiBlank_ofNat hblank)]
      · have hlast : ∀ char ∈ (decodeChars (front ++ [byte])).reverse.head?,
            ¬ isAsciiBlank char = true := by
          intro char hchar hchars
          rw [List.head?_reverse] at hchar
          obtain ⟨last, hlast, hblanks⟩ := isBlank_getLast char hchar hchars
          rw [List.getLast?_concat] at hlast
          cases hlast
          exact hblank hblanks
        rw [Bytes.dropEndWhile, List.reverse_append, List.reverse_singleton,
          List.singleton_append, List.dropWhile_cons_of_neg hblank, List.reverse_cons,
          List.reverse_reverse]
        cases hchars : (decodeChars (front ++ [byte])).reverse with
        | nil => rw [List.dropWhile_nil, ← hchars, List.reverse_reverse]
        | cons char more =>
            rw [hchars] at hlast
            rw [List.dropWhile_cons_of_neg (hlast char rfl), ← hchars, List.reverse_reverse]

/-- Trimming commutes with decoding. -/
theorem decodeChars_trim (text : Bytes) :
    decodeChars (Bytes.trim text) = trimChars (decodeChars text) := by
  rw [Bytes.trim, decodeChars_dropEndWhile, decodeChars_dropWhile, trimChars]

end CommentMarkers.Text

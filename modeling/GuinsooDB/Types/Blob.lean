import Mathlib.Tactic.SplitIfs

/-! Blobs as text. The sizes are computed in a pass of their own before anything is written, so each
writer is compared with the size announced for it. -/

namespace GuinsooDB.Blob

open List

inductive ConversionException where
  | unterminatedEscape
  | invalidEscape (code : List UInt8)
  | unescapedByte
  | base64Length (text : List UInt8)
  | base64Byte (text : List UInt8) (value : UInt8) (position : Nat)
  deriving DecidableEq

/-- The digits of `HEX_TABLE`. -/
def hexTable (digit : Nat) : UInt8 :=
  .ofNat (if digit < 10 then 48 + digit else 55 + digit)

/-- `HEX_MAP`, with no value in place of -1. -/
def hexMap (byte : UInt8) : Option Nat :=
  let code := byte.toNat
  if 48 ≤ code ∧ code ≤ 57 then some (code - 48)
  else if 65 ≤ code ∧ code ≤ 70 then some (code - 55)
  else if 97 ≤ code ∧ code ≤ 102 then some (code - 87)
  else none

/-- Whether a byte is rendered as it is: printable, and not the backslash. -/
def isPlain (byte : UInt8) : Bool :=
  32 ≤ byte && byte ≤ 127 && byte != 92

def getStringSize : List UInt8 → Nat
  | [] => 0
  | byte :: rest => (if isPlain byte then 1 else 4) + getStringSize rest

def toString : List UInt8 → List UInt8
  | [] => []
  | byte :: rest =>
    (if isPlain byte then [byte]
      else [92, 120, hexTable (byte.toNat >>> 4), hexTable (byte.toNat &&& 0x0F)]) ++ toString rest

def getBlobSize : List UInt8 → Except ConversionException Nat
  | [] => .ok 0
  | 92 :: marker :: high :: low :: rest =>
    if marker ≠ 120 ∨ hexMap high = none ∨ hexMap low = none then .error (.invalidEscape [92, marker, high, low])
    else (· + 1) <$> getBlobSize rest
  | byte :: rest =>
    if byte = 92 then .error .unterminatedEscape
    else if 32 ≤ byte ∧ byte ≤ 127 then (· + 1) <$> getBlobSize rest
    else .error .unescapedByte

/-- The writer reads an escape without looking at what `GetBlobSize` has checked of it. -/
def writeBlob : List UInt8 → Except ConversionException (List UInt8)
  | [] => .ok []
  | 92 :: _ :: high :: low :: rest =>
    (UInt8.ofNat (((hexMap high).getD 0 <<< 4) + (hexMap low).getD 0) :: ·) <$> writeBlob rest
  | byte :: rest =>
    if 32 ≤ byte ∧ byte ≤ 127 then (byte :: ·) <$> writeBlob rest
    else .error .unescapedByte

def toBlob (text : List UInt8) : Except ConversionException (List UInt8) := do
  let _ ← getBlobSize text
  writeBlob text

theorem ok_of_map {α β : Type} {f : α → β} {result : Except ConversionException α} {value : β}
    (mapped : f <$> result = .ok value) : ∃ inner, result = .ok inner ∧ f inner = value := by
  cases result with
  | error => cases mapped
  | ok inner => exact ⟨inner, rfl, Except.ok.inj mapped⟩

theorem hexMap_hexTable : ∀ digit < 16, hexMap (hexTable digit) = some digit := by
  decide

theorem toString_length {blob : List UInt8} : (toString blob).length = getStringSize blob := by
  induction blob with
  | nil => rfl
  | cons byte rest ih =>
    rw [toString, getStringSize, length_append, ih]
    split <;> rfl

variable {size : Nat} {text : List UInt8}

/-- What `GetBlobSize` accepts is written without an error, and in the size it announced. -/
theorem writeBlob_size (announced : getBlobSize text = .ok size) :
    ∃ blob, writeBlob text = .ok blob ∧ blob.length = size := by
  fun_induction getBlobSize text generalizing size with
  | case1 => exact ⟨[], rfl, Except.ok.inj announced⟩
  | case2 | case4 | case6 => cases announced
  | case3 marker high low rest accepted ih =>
    obtain ⟨fewer, counted, rfl⟩ := ok_of_map announced
    obtain ⟨blob, written, rfl⟩ := ih counted
    exact ⟨_ :: blob, by rw [writeBlob, written]; rfl, rfl⟩
  | case5 byte rest short plain printable ih =>
    obtain ⟨fewer, counted, rfl⟩ := ok_of_map announced
    obtain ⟨blob, written, rfl⟩ := ih counted
    refine ⟨byte :: blob, ?_, rfl⟩
    rw [writeBlob, if_pos printable, written]
    · rfl
    · exact short

theorem halves (byte : UInt8) : byte.toNat >>> 4 < 16 ∧ byte.toNat &&& 0x0F < 16 ∧
    UInt8.ofNat ((byte.toNat >>> 4) <<< 4 + (byte.toNat &&& 0x0F)) = byte := by
  have bound := byte.toNat_lt
  have low : byte.toNat &&& 0x0F = byte.toNat % 16 := Nat.and_two_pow_sub_one_eq_mod byte.toNat 4
  rw [low, Nat.shiftRight_eq_div_pow, Nat.shiftLeft_eq]
  refine ⟨by omega, by omega, ?_⟩
  rw [Nat.div_add_mod', UInt8.ofNat_toNat]

theorem toString_back (blob : List UInt8) : getBlobSize (toString blob) = .ok blob.length ∧
    writeBlob (toString blob) = .ok blob := by
  induction blob with
  | nil => exact ⟨rfl, rfl⟩
  | cons byte rest ih =>
    obtain ⟨counted, written⟩ := ih
    rw [toString]
    by_cases plain : isPlain byte
    · obtain ⟨⟨above, below⟩, other⟩ : (32 ≤ byte ∧ byte ≤ 127) ∧ byte ≠ 92 := by simpa [isPlain] using plain
      rw [if_pos plain, singleton_append, getBlobSize, writeBlob, if_neg other, if_pos ⟨above, below⟩,
        if_pos ⟨above, below⟩, counted, written]
      · exact ⟨rfl, rfl⟩
      all_goals exact fun _ _ _ _ same _ => other same
    obtain ⟨high, low, whole⟩ := halves byte
    rw [if_neg plain]
    simp only [cons_append, nil_append, getBlobSize, writeBlob, hexMap_hexTable _ high,
      hexMap_hexTable _ low, counted, written, Option.getD_some, whole]
    exact ⟨rfl, rfl⟩

/-- The digits of `BASE64_MAP`. -/
def base64Map (digit : Nat) : UInt8 :=
  .ofNat (if digit < 26 then 65 + digit else if digit < 52 then 71 + digit else if digit < 62 then digit - 4
    else if digit = 62 then 43 else 47)

def base64Padding : UInt8 := 61

/-- `BASE64_DECODING_TABLE`, with no value in place of -1. -/
def base64DecodingTable (byte : UInt8) : Option Nat :=
  let code := byte.toNat
  if 65 ≤ code ∧ code ≤ 90 then some (code - 65)
  else if 97 ≤ code ∧ code ≤ 122 then some (code - 71)
  else if 48 ≤ code ∧ code ≤ 57 then some (code + 4)
  else if code = 43 then some 62
  else if code = 47 then some 63
  else none

def toBase64Size (blob : List UInt8) : Nat :=
  (blob.length + 2) / 3 * 4

/-- The four digits of three bytes; the digits after a text's last byte leave out the byte that is missing. -/
def digitOne (first : UInt8) : Nat := first.toNat >>> 2 &&& 0x3F

def digitTwo (first second : UInt8) : Nat :=
  (first.toNat &&& 0x3) <<< 4 ||| (second.toNat &&& 0xF0) >>> 4

def digitThree (second third : UInt8) : Nat :=
  (second.toNat &&& 0xF) <<< 2 ||| (third.toNat &&& 0xC0) >>> 6

def digitFour (third : UInt8) : Nat := third.toNat &&& 0x3F

def toBase64 : List UInt8 → List UInt8
  | first :: second :: third :: rest =>
    base64Map (digitOne first) :: base64Map (digitTwo first second) :: base64Map (digitThree second third) ::
      base64Map (digitFour third) :: toBase64 rest
  | [first, second] =>
    [base64Map (digitOne first), base64Map (digitTwo first second), base64Map ((second.toNat &&& 0xF) <<< 2),
      base64Padding]
  | [first] =>
    [base64Map (digitOne first), base64Map ((first.toNat &&& 0x3) <<< 4), base64Padding, base64Padding]
  | [] => []

def fromBase64Size (text : List UInt8) : Except ConversionException Nat :=
  if text.length % 4 ≠ 0 then .error (.base64Length text)
  else if text.length < 4 then .ok 0
  else
    let baseSize := text.length / 4 * 3
    if text[text.length - 2]? = some base64Padding then .ok (baseSize - 2)
    else if text[text.length - 1]? = some base64Padding then .ok (baseSize - 1)
    else .ok baseSize

def decodeByte (allowPadding : Bool) (text : List UInt8) (position decodeIdx : Nat) (byte : UInt8) :
    Except ConversionException Nat :=
  if allowPadding ∧ 2 ≤ decodeIdx ∧ byte = base64Padding then .ok 0
  else match base64DecodingTable byte with
    | some value => .ok value
    | none => .error (.base64Byte text byte (position + decodeIdx))

/-- The three bytes of four digits, the highest first. -/
def decodeBase64Bytes (allowPadding : Bool) (text : List UInt8) (position : Nat)
    (first second third fourth : UInt8) : Except ConversionException (UInt8 × UInt8 × UInt8) := do
  let first ← decodeByte allowPadding text position 0 first
  let second ← decodeByte allowPadding text position 1 second
  let third ← decodeByte allowPadding text position 2 third
  let fourth ← decodeByte allowPadding text position 3 fourth
  let combined := first <<< 18 + second <<< 12 + third <<< 6 + fourth
  return (.ofNat ((combined >>> 16) &&& 0xFF), .ofNat ((combined >>> 8) &&& 0xFF), .ofNat (combined &&& 0xFF))

/-- The loop of `FromBase64` from a position of the text on, with what was written before it. Only the
empty text has fewer than four bytes left, since `FromBase64Size` has refused the other lengths. -/
def decodeFrom (text : List UInt8) (outputSize position : Nat) (output : List UInt8) :
    List UInt8 → Except ConversionException (List UInt8)
  | [first, second, third, fourth] => do
    let (high, middle, low) ← decodeBase64Bytes true text position first second third fourth
    let output := output ++ [high]
    let output := if output.length < outputSize then output ++ [middle] else output
    return if output.length < outputSize then output ++ [low] else output
  | first :: second :: third :: fourth :: rest => do
    let (high, middle, low) ← decodeBase64Bytes false text position first second third fourth
    decodeFrom text outputSize (position + 4) (output ++ [high, middle, low]) rest
  | _ => .ok output

def fromBase64 (text : List UInt8) : Except ConversionException (List UInt8) := do
  let outputSize ← fromBase64Size text
  decodeFrom text outputSize 0 [] text

theorem base64DecodingTable_base64Map : ∀ digit < 64, base64DecodingTable (base64Map digit) = some digit := by
  decide

theorem base64Map_ne (digit : Nat) : base64Map digit ≠ base64Padding := by
  by_cases small : digit < 64
  · intro padded
    have decoded := base64DecodingTable_base64Map digit small
    rw [padded] at decoded
    cases decoded
  · rw [base64Map, if_neg (by omega), if_neg (by omega), if_neg (by omega), if_neg (by omega)]
    decide

theorem decodeByte_digit (allowPadding : Bool) {decodeIdx : Nat} {position : Nat} {digit : Nat}
    (small : digit < 64) : decodeByte allowPadding text position decodeIdx (base64Map digit) = .ok digit := by
  rw [decodeByte, if_neg fun padded => base64Map_ne digit padded.2.2, base64DecodingTable_base64Map digit small]

theorem digits (first second third : UInt8) : digitOne first = first.toNat / 4 ∧
    digitTwo first second = first.toNat % 4 * 16 + second.toNat / 16 ∧
    digitThree second third = second.toNat % 16 * 4 + third.toNat / 64 ∧ digitFour third = third.toNat % 64 := by
  have firstBound := first.toNat_lt
  have secondBound := second.toNat_lt
  have thirdBound := third.toNat_lt
  have low (value bits : Nat) := Nat.and_two_pow_sub_one_eq_mod value bits
  refine ⟨?_, ?_, ?_, low _ 6⟩
  · rw [digitOne, low _ 6, Nat.shiftRight_eq_div_pow]
    omega
  · rw [digitTwo, Nat.shiftRight_and_distrib, low _ 2, show 0xF0 >>> 4 = 2 ^ 4 - 1 from rfl, low _ 4,
      Nat.shiftRight_eq_div_pow, ← Nat.shiftLeft_add_eq_or_of_lt (Nat.mod_lt _ (by decide)), Nat.shiftLeft_eq]
    omega
  · rw [digitThree, Nat.shiftRight_and_distrib, low _ 4, show 0xC0 >>> 6 = 2 ^ 2 - 1 from rfl, low _ 2,
      Nat.shiftRight_eq_div_pow, ← Nat.shiftLeft_add_eq_or_of_lt (Nat.mod_lt _ (by decide)), Nat.shiftLeft_eq]
    omega

theorem digits_small (first third : UInt8) {second : UInt8} : digitOne first < 64 ∧ digitTwo first second < 64 ∧
    digitThree second third < 64 ∧ digitFour third < 64 := by
  have firstBound := first.toNat_lt
  have secondBound := second.toNat_lt
  have thirdBound := third.toNat_lt
  obtain ⟨one, two, three, four⟩ := digits first second third
  omega

variable {text : List UInt8} {position : Nat}

/-- Four digits read as those of three bytes give the bytes, also where padding is read as a digit of zero. -/
theorem decodeBase64Bytes_digits {allowPadding : Bool} {one two three four first second third : UInt8}
    (readOne : decodeByte allowPadding text position 0 one = .ok (digitOne first))
    (readTwo : decodeByte allowPadding text position 1 two = .ok (digitTwo first second))
    (readThree : decodeByte allowPadding text position 2 three = .ok (digitThree second third))
    (readFour : decodeByte allowPadding text position 3 four = .ok (digitFour third)) :
    decodeBase64Bytes allowPadding text position one two three four = .ok (first, second, third) := by
  obtain ⟨firstDigit, secondDigit, thirdDigit, fourthDigit⟩ := digits first second third
  have firstBound := first.toNat_lt
  have secondBound := second.toNat_lt
  have thirdBound := third.toNat_lt
  have low (value : Nat) : value &&& 0xFF = value % 256 := Nat.and_two_pow_sub_one_eq_mod value 8
  rw [decodeBase64Bytes, readOne, readTwo, readThree, readFour, firstDigit, secondDigit, thirdDigit, fourthDigit]
  refine congrArg Except.ok (Prod.ext ?_ (Prod.ext ?_ ?_))
  all_goals
    simp only [low, Nat.shiftRight_eq_div_pow, Nat.shiftLeft_eq, ← UInt8.toNat_inj, UInt8.toNat_ofNat']
    omega

theorem decodeBase64Bytes_group (allowPadding : Bool) (text : List UInt8) (position : Nat)
    (first second third : UInt8) :
    decodeBase64Bytes allowPadding text position (base64Map (digitOne first)) (base64Map (digitTwo first second))
      (base64Map (digitThree second third)) (base64Map (digitFour third)) = .ok (first, second, third) := by
  obtain ⟨one, two, three, four⟩ := digits_small first third
  exact decodeBase64Bytes_digits (decodeByte_digit _ one) (decodeByte_digit _ two)
    (decodeByte_digit _ three) (decodeByte_digit _ four)

theorem toBase64_length (blob : List UInt8) : (toBase64 blob).length = toBase64Size blob := by
  unfold toBase64Size
  fun_induction toBase64 blob with
  | case1 first second third rest ih =>
    simp only [length_cons, ih]
    omega
  | case2 | case3 => simp
  | case4 => rfl

theorem fromBase64Size_eq (long : 4 ≤ text.length) (whole : text.length % 4 = 0) :
    fromBase64Size text = .ok (text.length / 4 * 3 - if text[text.length - 2]? = some base64Padding then 2
      else if text[text.length - 1]? = some base64Padding then 1 else 0) := by
  rw [fromBase64Size, if_neg (by omega), if_neg (by omega)]
  split
  · rfl
  · split <;> rfl

/-- A group of four digits before others announces its three bytes. -/
theorem fromBase64Size_group (first second third fourth : UInt8) {rest : List UInt8} (long : 4 ≤ rest.length)
    (whole : rest.length % 4 = 0) :
    fromBase64Size (first :: second :: third :: fourth :: rest) = (· + 3) <$> fromBase64Size rest := by
  obtain ⟨before, sized⟩ := Nat.exists_eq_add_of_le' long
  rw [fromBase64Size_eq (by simp) (by simp only [length_cons]; omega), fromBase64Size_eq long whole]
  simp only [length_cons, sized, Nat.reduceSubDiff, getElem?_cons_succ]
  refine congrArg Except.ok ?_
  dsimp only
  split_ifs <;> omega

theorem fromBase64Size_toBase64 (blob : List UInt8) : fromBase64Size (toBase64 blob) = .ok blob.length := by
  fun_induction toBase64 blob with
  | case1 first second third rest ih =>
    by_cases last : rest = []
    · subst last
      simp [fromBase64Size, toBase64, base64Map_ne]
    have positive := length_pos_iff.mpr last
    have sized := toBase64_length rest
    unfold toBase64Size at sized
    rw [fromBase64Size_group _ _ _ _ (by omega) (by omega), ih]
    rfl
  | case2 first second => simp [fromBase64Size, base64Map_ne]
  | case3 first => simp [fromBase64Size]
  | case4 => rfl

theorem whole_of_fromBase64Size (announced : fromBase64Size text = .ok size) : text.length % 4 = 0 := by
  rw [fromBase64Size] at announced
  split at announced
  · cases announced
  · omega

/-- The loop writes what was announced for the rest of the text. -/
theorem decodeFrom_size {output rest result : List UInt8} {outputSize : Nat}
    (announced : fromBase64Size rest = .ok size) (total : outputSize = output.length + size)
    (decoded : decodeFrom text outputSize position output rest = .ok result) : result.length = outputSize := by
  have whole := whole_of_fromBase64Size announced
  fun_induction decodeFrom text outputSize position output rest generalizing size with
  | case1 position output first second third fourth =>
    obtain ⟨⟨high, middle, low⟩, -, rfl⟩ := ok_of_map decoded
    rw [fromBase64Size_eq (by simp) whole] at announced
    have sized := Except.ok.inj announced
    have between : 1 ≤ size ∧ size ≤ 3 := by split_ifs at sized <;> simp at sized <;> omega
    split_ifs <;> simp at * <;> omega
  | case2 position output first second third fourth rest nonempty ih =>
    cases group : decodeBase64Bytes false text position first second third fourth with
    | error => rw [group] at decoded; cases decoded
    | ok bytes =>
      rw [group] at decoded
      have long := length_pos_iff.mpr nonempty
      simp only [length_cons] at whole
      rw [fromBase64Size_group _ _ _ _ (by omega) (by omega)] at announced
      obtain ⟨fewer, counted, rfl⟩ := ok_of_map announced
      exact ih bytes.1 bytes.2.1 bytes.2.2 counted (by simp; omega) decoded (by omega)
  | case3 rest position output _ notMore =>
    rcases rest with _ | ⟨first, _ | ⟨second, _ | ⟨third, _ | ⟨fourth, rest⟩⟩⟩⟩
    · obtain rfl := Except.ok.inj announced
      obtain rfl := Except.ok.inj decoded
      exact total.symm
    · cases whole
    · cases whole
    · cases whole
    · exact absurd rfl (notMore _ _ _ _ _)

theorem decodeFrom_toBase64 (text output blob : List UInt8) (position : Nat) :
    decodeFrom text (output.length + blob.length) position output (toBase64 blob) = .ok (output ++ blob) := by
  fun_induction toBase64 blob generalizing output position with
  | case1 first second third rest ih =>
    by_cases last : rest = []
    · subst last
      simp [toBase64, decodeFrom, decodeBase64Bytes_group, bind, Except.bind, pure, Except.pure]
    have sized := toBase64_length rest
    have positive := length_pos_iff.mpr last
    unfold toBase64Size at sized
    have decoded := ih (output ++ [first, second, third]) (position + 4)
    rw [length_append, append_assoc] at decoded
    rw [decodeFrom, decodeBase64Bytes_group]
    · rw [show (first :: second :: third :: rest).length = [first, second, third].length + rest.length by simp; omega,
        ← Nat.add_assoc]
      exact decoded
    · exact ne_nil_of_length_pos (by omega)
  | case2 first second =>
    obtain ⟨one, two, three, -⟩ := digits_small first 0
    have decoded : decodeBase64Bytes true text position _ _ _ base64Padding = .ok (first, second, 0) :=
      decodeBase64Bytes_digits (decodeByte_digit _ one) (decodeByte_digit _ two) (decodeByte_digit _ three) rfl
    simp only [digitThree, UInt8.toNat_zero, Nat.zero_and, Nat.zero_shiftRight, Nat.or_zero] at decoded
    simp [decodeFrom, decoded, bind, Except.bind, pure, Except.pure]
  | case3 first =>
    obtain ⟨one, two, -⟩ := digits_small first 0
    have decoded : decodeBase64Bytes true text position _ _ base64Padding base64Padding = .ok (first, 0, 0) :=
      decodeBase64Bytes_digits (decodeByte_digit _ one) (decodeByte_digit _ two) rfl rfl
    rw [digitTwo, UInt8.toNat_zero, Nat.zero_and, Nat.zero_shiftRight, Nat.or_zero] at decoded
    simp [decodeFrom, decoded, bind, Except.bind, pure, Except.pure]
  | case4 => simp [decodeFrom]

end GuinsooDB.Blob

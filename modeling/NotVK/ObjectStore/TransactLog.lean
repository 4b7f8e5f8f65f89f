import NotVK.Library.SignedVarint

/-!
# The transaction log

A transaction is written as a sequence of instructions, each a byte for its kind
and integers in a format that does not depend on their type.  The parser reads each
integer as one of a given type.
-/

namespace NotVK
namespace ObjectStore

open Varints

section Integers

/-- `std::numeric_limits<T>`. -/
structure IntType where
  digits : Nat
  isSigned : Bool
deriving DecidableEq

namespace IntType

def int64 : IntType := ⟨63, true⟩
def int32 : IntType := ⟨31, true⟩
def uint32 : IntType := ⟨32, false⟩
/-- `size_t`. -/
def size : IntType := ⟨64, false⟩

/-- `(num_bits + (bits_per_byte - 1)) / bits_per_byte`, with one sign bit. -/
def maxBytes (T : IntType) : Nat :=
  (T.digits + 1 + 6) / 7

/-- The values of the type. -/
def InRange (T : IntType) (v : Int) : Prop :=
  (if T.isSigned then -2 ^ T.digits else 0) ≤ v ∧ v < 2 ^ T.digits

instance (T : IntType) (v : Int) : Decidable (T.InRange v) :=
  inferInstanceAs (Decidable (_ ∧ _))

end IntType

/-- The last byte, with the sign. -/
def lastByte (negative : Bool) (value : Nat) : UInt8 :=
  .ofNat (if negative then (1 <<< 6) ||| value else value)

/-- The loop of `encode_int`, with the rounds that are left. -/
def encodeParts (negative : Bool) : Nat → Nat → List UInt8
  | 0, value => [lastByte negative value]
  | rounds + 1, value =>
      if value >>> 6 = 0 then [lastByte negative value]
      else
        .ofNat ((1 <<< 7) ||| (value &&& 127)) ::
          encodeParts negative rounds (value >>> 7)

/-- `encode_int<T>(ptr, value)`. -/
def encodeInt (T : IntType) (value : Int) : List UInt8 :=
  let negative := T.isSigned && decide (value < 0)
  let value := if negative then -(value + 1) else value
  encodeParts negative T.maxBytes value.toNat

/-- The loop of `read_int`, with the rounds that are left. -/
def readParts (T : IntType) :
    Nat → Nat → Nat → List UInt8 → Option (UInt8 × Nat × List UInt8)
  -- the last round ends in `break` or throws
  | 0, _, _, _ => none
  | _ + 1, _, _, [] => none
  | rounds + 1, i, value, part :: input =>
      if part.toNat &&& 0x80 = 0 then
        let p := part.toNat &&& 0x3F
        if (2 ^ T.digits - 1) >>> (i * 7) < p then none
        else some (part, value ||| (p <<< (i * 7)), input)
      else if rounds = 0 then none
      else
        readParts T rounds (i + 1) (value ||| ((part.toNat &&& 0x7F) <<< (i * 7))) input

/-- `value = -value` and `int_subtract_with_overflow_detect(value, 1)`. -/
def negate (T : IntType) (value : Nat) : Option Int :=
  if T.isSigned then
    if -(value : Int) < -2 ^ T.digits + 1 then none else some (-(value : Int) - 1)
  else
    let value := (2 ^ T.digits - value) % 2 ^ T.digits
    if value = 0 then none else some (value - 1 : Nat)

/-- `read_int<T>()`. -/
def readInt (T : IntType) (input : List UInt8) : Option (Int × List UInt8) :=
  match readParts T T.maxBytes 0 0 input with
  | none => none
  | some (part, value, rest) =>
      if part.toNat &&& 0x40 ≠ 0 then (negate T value).map (fun v => (v, rest))
      else some (value, rest)

theorem and_127 (n : Nat) :
    n &&& 127 = n % 128 :=
  Nat.and_two_pow_sub_one_eq_mod n 7

theorem and_63 (n : Nat) :
    n &&& 63 = n % 64 :=
  Nat.and_two_pow_sub_one_eq_mod n 6

/-- The bits of one byte. -/
theorem byte_and_128_eq_zero
    (b : UInt8) :
    b.toNat &&& 0x80 = 0 ↔ b.toNat < 128 := by
  have h : ∀ n : Fin 256, n.val &&& 128 = 0 ↔ n.val < 128 := by decide +kernel
  exact h ⟨b.toNat, b.toNat_lt⟩

theorem byte_and_64
    (b : UInt8)
    (hb : b.toNat < 128) :
    b.toNat &&& 0x40 ≠ 0 ↔ 64 ≤ b.toNat := by
  have h : ∀ n : Fin 128, n.val &&& 64 ≠ 0 ↔ 64 ≤ n.val := by decide +kernel
  exact h ⟨b.toNat, hb⟩

theorem toNat_lastByte
    (negative : Bool) {value : Nat}
    (hvalue : value < 64) :
    (lastByte negative value).toNat = if negative then 64 + value else value := by
  have hor : (1 <<< 6) ||| value = 64 + value := by
    have h := Nat.shiftLeft_add_eq_or_of_lt (i := 6) hvalue 1
    exact h.symm
  cases negative with
  | true =>
      simp only [lastByte, if_true, hor, UInt8.toNat_ofNat']
      omega
  | false =>
      simp only [lastByte, Bool.false_eq_true, if_false, UInt8.toNat_ofNat']
      omega

theorem denotes_lastByte
    {negative : Bool} {value : Nat}
    (hvalue : value < 64) :
    Denotes [lastByte negative value] negative value := by
  have hbyte := toNat_lastByte negative hvalue
  cases negative with
  | true =>
      rw [if_pos rfl] at hbyte
      have h := Denotes.last (lastByte true value) (by omega)
      rw [hbyte] at h
      have hsign : decide (64 ≤ 64 + value) = true := by simp
      have hmod : (64 + value) % 64 = value := by omega
      rwa [hsign, hmod] at h
  | false =>
      rw [if_neg (by simp)] at hbyte
      have h := Denotes.last (lastByte false value) (by omega)
      rw [hbyte] at h
      have hsign : decide (64 ≤ value) = false := by simpa using hvalue
      have hmod : value % 64 = value := by omega
      rwa [hsign, hmod] at h

/-- The rounds suffice for a magnitude within the limit, and no byte is spare. -/
theorem denotes_encodeParts
    {negative : Bool} {rounds value : Nat}
    (hvalue : value < limit rounds) :
    Denotes (encodeParts negative rounds value) negative value ∧
      ∀ k, value < limit k → (encodeParts negative rounds value).length ≤ k + 1 := by
  induction rounds generalizing value with
  | zero =>
      exact ⟨denotes_lastByte hvalue, fun k _ => by simp [encodeParts]⟩
  | succ rounds ih =>
      rw [encodeParts]
      have hshift : value >>> 6 = value / 64 := Nat.shiftRight_eq_div_pow value 6
      have hshift' : value >>> 7 = value / 128 := Nat.shiftRight_eq_div_pow value 7
      split
      next hzero =>
        exact ⟨denotes_lastByte (by omega), fun k _ => by simp⟩
      next hmore =>
        rw [limit_succ] at hvalue
        obtain ⟨hdenotes, hlength⟩ := @ih (value >>> 7) (by omega)
        have hor : (1 <<< 7) ||| (value &&& 127) = 128 + value % 128 := by
          have hlt : value % 128 < 2 ^ 7 := Nat.mod_lt _ (by omega)
          have h := Nat.shiftLeft_add_eq_or_of_lt hlt 1
          rw [and_127]
          exact h.symm
        have hbyte : (UInt8.ofNat ((1 <<< 7) ||| (value &&& 127))).toNat =
            128 + value % 128 := by
          rw [hor, UInt8.toNat_ofNat']
          omega
        refine ⟨?_, ?_⟩
        · have h := Denotes.more (.ofNat ((1 <<< 7) ||| (value &&& 127))) (by omega) hdenotes
          rw [hbyte] at h
          have hn : (128 + value % 128) % 128 + 128 * (value >>> 7) = value := by omega
          rwa [hn] at h
        · intro k hk
          cases k with
          | zero =>
              rw [limit_zero] at hk
              omega
          | succ k =>
              rw [limit_succ] at hk
              rw [List.length_cons]
              have := hlength k (by omega)
              omega

/-- The bits of one more byte. -/
theorem or_shiftLeft
    {value p w : Nat}
    (hvalue : value < 2 ^ w) :
    value ||| (p <<< w) = value + p * 2 ^ w := by
  rw [Nat.or_comm, ← Nat.shiftLeft_add_eq_or_of_lt hvalue, Nat.shiftLeft_eq]
  omega

/-- What the last byte may hold. -/
theorem shiftRight_lt_iff
    {d w p : Nat} :
    (2 ^ d - 1) >>> w < p ↔ ¬ p * 2 ^ w < 2 ^ d := by
  have hpos : 0 < 2 ^ d := Nat.two_pow_pos d
  rw [Nat.shiftRight_eq_div_pow, Nat.div_lt_iff_lt_mul (Nat.two_pow_pos w)]
  omega

/-- Whether there is room for a magnitude is decided by its higher bits. -/
theorem room_iff
    {d w r m : Nat}
    (hr : r < 128)
    (hw : w + 7 ≤ d) :
    m * 2 ^ (w + 7) < 2 ^ d ↔ (r + 128 * m) * 2 ^ w < 2 ^ d := by
  have hpow : 2 ^ (w + 7) = 128 * 2 ^ w := by
    rw [Nat.pow_add, Nat.mul_comm]
  obtain ⟨e, rfl⟩ : ∃ e, d = w + 7 + e := ⟨d - (w + 7), by omega⟩
  have hd : 2 ^ (w + 7 + e) = 2 ^ e * (128 * 2 ^ w) := by
    rw [Nat.pow_add, hpow, Nat.mul_comm]
  have hpos : 0 < 2 ^ w := Nat.two_pow_pos w
  rw [hpow, hd]
  constructor
  · intro h
    have hm : m < 2 ^ e := Nat.lt_of_mul_lt_mul_right h
    calc (r + 128 * m) * 2 ^ w < 128 * (m + 1) * 2 ^ w :=
          Nat.mul_lt_mul_of_pos_right (by omega) hpos
      _ = (m + 1) * (128 * 2 ^ w) := by ring
      _ ≤ 2 ^ e * (128 * 2 ^ w) := Nat.mul_le_mul_right _ hm
  · intro h
    calc m * (128 * 2 ^ w) = 128 * m * 2 ^ w := by ring
      _ ≤ (r + 128 * m) * 2 ^ w := Nat.mul_le_mul_right _ (by omega)
      _ < 2 ^ e * (128 * 2 ^ w) := h

/-- The loop reads what the bytes hold, if there are rounds and room for it. -/
theorem readParts_of_denotes
    {T : IntType} {bytes rest : List UInt8} {negative : Bool} {n : Nat}
    {rounds i value : Nat}
    (h : Denotes bytes negative n)
    (hrounds : rounds + i = T.maxBytes)
    (hvalue : value < 2 ^ (i * 7)) :
    ∃ part : UInt8,
      part.toNat < 128 ∧
      decide (64 ≤ part.toNat) = negative ∧
      readParts T rounds i value (bytes ++ rest) =
        if bytes.length ≤ rounds ∧ n * 2 ^ (i * 7) < 2 ^ T.digits then
          some (part, value + n * 2 ^ (i * 7), rest)
        else none := by
  induction h generalizing rounds i value with
  | last b hb =>
      refine ⟨b, hb, rfl, ?_⟩
      cases rounds with
      | zero => rfl
      | succ rounds =>
          rw [List.singleton_append, readParts,
            if_pos ((byte_and_128_eq_zero b).mpr hb), and_63]
          simp only [shiftRight_lt_iff, ite_not, or_shiftLeft hvalue, List.length_singleton,
            Nat.le_add_left, true_and]
  | @more b bytes negative n hb htail ih =>
      have hpos := htail.length_pos
      have hbit : ¬ (b.toNat &&& 0x80 = 0) := by
        rw [byte_and_128_eq_zero]
        omega
      have hmod : b.toNat % 128 < 128 := Nat.mod_lt _ (by omega)
      have hpow : 2 ^ ((i + 1) * 7) = 128 * 2 ^ (i * 7) := by
        rw [Nat.succ_mul, Nat.pow_add, Nat.mul_comm]
      have hvalue' : value + b.toNat % 128 * 2 ^ (i * 7) < 2 ^ ((i + 1) * 7) := by
        have hle : b.toNat % 128 * 2 ^ (i * 7) ≤ 127 * 2 ^ (i * 7) :=
          Nat.mul_le_mul_right _ (by omega)
        omega
      cases rounds with
      | zero =>
          obtain ⟨part, hpart, hsign, _⟩ := @ih T.maxBytes 0 0 rfl (by simp)
          exact ⟨part, hpart, hsign, by simp [readParts]⟩
      | succ rounds =>
          obtain ⟨part, hpart, hsign, hread⟩ := @ih rounds (i + 1) _ (by omega) hvalue'
          refine ⟨part, hpart, hsign, ?_⟩
          rw [List.cons_append, readParts, if_neg hbit]
          cases rounds with
          | zero =>
              rw [if_pos rfl, if_neg]
              rw [List.length_cons]
              omega
          | succ rounds =>
              have hroom : i * 7 + 7 ≤ T.digits := by
                rw [IntType.maxBytes] at hrounds
                omega
              have hiff := room_iff (m := n) hmod hroom
              rw [← Nat.succ_mul] at hiff
              have hsum : value + b.toNat % 128 * 2 ^ (i * 7) + n * 2 ^ ((i + 1) * 7) =
                  value + (b.toNat % 128 + 128 * n) * 2 ^ (i * 7) := by
                rw [hpow]
                ring
              rw [if_neg (Nat.succ_ne_zero rounds), and_127, or_shiftLeft hvalue, hread, hsum,
                List.length_cons]
              exact if_congr (and_congr Nat.add_le_add_iff_right.symm hiff) rfl rfl

/-- What is read when some bytes hold an integer. -/
theorem readInt_of_denotes
    {T : IntType} {bytes : List UInt8} {negative : Bool} {n : Nat}
    (h : Denotes bytes negative n)
    (rest : List UInt8) :
    readInt T (bytes ++ rest) =
      if bytes.length ≤ T.maxBytes ∧ n < 2 ^ T.digits then
        (if negative then negate T n else some (n : Int)).map (fun v => (v, rest))
      else none := by
  obtain ⟨part, hpart, hsign, hread⟩ :=
    @readParts_of_denotes T _ rest _ _ T.maxBytes 0 0 h rfl (by simp)
  rw [Nat.zero_mul, Nat.pow_zero, Nat.mul_one, Nat.zero_add] at hread
  rw [readInt, hread]
  by_cases hroom : bytes.length ≤ T.maxBytes ∧ n < 2 ^ T.digits
  · rw [if_pos hroom, if_pos hroom]
    simp only [byte_and_64 part hpart]
    cases negative with
    | true => rw [if_pos (by simpa using hsign), if_pos rfl]
    | false => rw [if_neg (by simpa using hsign), if_neg (by simp), Option.map_some]
  · rw [if_neg hroom, if_neg hroom]

theorem IntType.inRange_iff
    {T : IntType} {v : Int} :
    T.InRange v ↔ (T.isSigned = true ∨ 0 ≤ v) ∧ magnitude v < 2 ^ T.digits := by
  have hpow : ((2 ^ T.digits : Nat) : Int) = 2 ^ T.digits := by
    rw [Nat.cast_pow]
    rfl
  rw [InRange, magnitude]
  rcases T with ⟨digits, _ | _⟩
  · simp only [Bool.false_eq_true, if_false, false_or]
    simp only at hpow
    split <;> omega
  · simp only [if_true, true_or, true_and]
    simp only at hpow
    split <;> omega

/-- What the encoder writes of a value that its type has. -/
theorem denotes_encodeInt
    {T : IntType} {v : Int}
    (hv : T.InRange v) :
    Denotes (encodeInt T v) (decide (v < 0)) (magnitude v) ∧
      ∀ k, magnitude v < limit k → (encodeInt T v).length ≤ k + 1 := by
  obtain ⟨hsigned, hlt⟩ := IntType.inRange_iff.mp hv
  have hnegative : (T.isSigned && decide (v < 0)) = decide (v < 0) := by
    rcases hsigned with hsigned | hnonneg
    · rw [hsigned, Bool.true_and]
    · rw [decide_eq_false (by omega), Bool.and_false]
  have hvalue : (if decide (v < 0) = true then -(v + 1) else v).toNat = magnitude v := by
    rw [magnitude]
    simp only [decide_eq_true_eq]
  have hlimit : magnitude v < limit T.maxBytes := by
    rw [limit_eq_two_pow]
    refine lt_of_lt_of_le hlt (Nat.pow_le_pow_right (by omega) ?_)
    rw [IntType.maxBytes]
    omega
  simp only [encodeInt, hnegative, hvalue]
  exact denotes_encodeParts hlimit

/-- A negative integer as one of an unsigned type. -/
theorem negate_unsigned
    {T : IntType} {n : Nat}
    (hT : T.isSigned = false)
    (hn : n < 2 ^ T.digits) :
    negate T n = if n = 0 then none else some (-((n : Int) + 1) + 2 ^ T.digits) := by
  have hpow : ((2 ^ T.digits : Nat) : Int) = 2 ^ T.digits := by
    rw [Nat.cast_pow]
    rfl
  rw [negate, hT]
  simp only [Bool.false_eq_true, if_false]
  rcases Nat.eq_zero_or_pos n with rfl | hpos
  · rw [Nat.sub_zero, Nat.mod_self, if_pos rfl, if_pos rfl]
  · rw [Nat.mod_eq_of_lt (by omega), if_neg (by omega), if_neg (by omega)]
    congr 1
    omega

theorem negate_signed
    {T : IntType} {n : Nat}
    (hT : T.isSigned = true)
    (hn : n < 2 ^ T.digits) :
    negate T n = some (-((n : Int) + 1)) := by
  have hpow : ((2 ^ T.digits : Nat) : Int) = 2 ^ T.digits := by
    rw [Nat.cast_pow]
    rfl
  rw [negate, hT, if_pos rfl, if_neg (by omega)]
  congr 1
  omega

/--
**An integer of any type is read as one of another type exactly when that type has
it, but for one case: as an unsigned integer a negative one other than -1 that is not
below -2^digits is taken modulo the type's range.**
-/
theorem readInt_encodeInt
    {T : IntType} {v : Int}
    (hv : T.InRange v)
    (T' : IntType) (rest : List UInt8) :
    readInt T' (encodeInt T v ++ rest) =
      if T'.InRange v then some (v, rest)
      else if T'.isSigned = false ∧ -2 ^ T'.digits ≤ v ∧ v < -1 then
        some (v + 2 ^ T'.digits, rest)
      else none := by
  obtain ⟨hdenotes, hlength⟩ := denotes_encodeInt hv
  have hpow : ((2 ^ T'.digits : Nat) : Int) = 2 ^ T'.digits := by
    rw [Nat.cast_pow]
    rfl
  rw [readInt_of_denotes hdenotes rest]
  have hmag : (magnitude v : Int) = if v < 0 then -(v + 1) else v := by
    rw [magnitude]
    split <;> omega
  by_cases hroom : magnitude v < 2 ^ T'.digits
  · have hbytes : (encodeInt T v).length ≤ T'.maxBytes := by
      have hk := hlength (T'.digits / 7) (by
        rw [limit_eq_two_pow]
        refine lt_of_lt_of_le hroom (Nat.pow_le_pow_right (by omega) ?_)
        omega)
      rw [IntType.maxBytes]
      omega
    rw [if_pos ⟨hbytes, hroom⟩]
    simp only [IntType.inRange_iff, hroom, and_true, decide_eq_true_eq]
    by_cases hneg : v < 0
    · rw [if_pos hneg] at hmag ⊢
      cases hT : T'.isSigned with
      | true =>
          rw [negate_signed hT hroom, if_pos (.inl rfl), Option.map_some]
          congr 2
          omega
      | false =>
          have hout : ¬ (false = true ∨ 0 ≤ v) := by
            rintro (hfalse | hnonneg)
            · cases hfalse
            · omega
          rw [negate_unsigned hT hroom, if_neg hout]
          by_cases hzero : magnitude v = 0
          · rw [if_pos hzero, Option.map_none, if_neg (by omega)]
          · rw [if_neg hzero, Option.map_some, if_pos ⟨rfl, by omega, by omega⟩]
            congr 2
            omega
    · rw [if_neg hneg] at hmag ⊢
      rw [if_pos (.inr (by omega)), Option.map_some]
      congr 2
  · rw [if_neg (by omega), if_neg (by rw [IntType.inRange_iff]; omega), if_neg]
    rintro ⟨_, hlow, hneg⟩
    rw [if_pos (by omega)] at hmag
    omega

/-- A negative integer is taken for a large index. -/
theorem readInt_encodeInt_neg :
    readInt .size (encodeInt .int64 (-3) ++ [7]) = some (18446744073709551613, [7]) := by
  rw [readInt_encodeInt (by decide)]
  decide

theorem readParts_none
    {T : IntType} {rounds i value : Nat} {input : List UInt8}
    (h : ∀ b ∈ input, 128 ≤ b.toNat) :
    readParts T rounds i value input = none := by
  induction input generalizing rounds i value with
  | nil => cases rounds <;> rfl
  | cons b input ih =>
      have hb := h b List.mem_cons_self
      cases rounds with
      | zero => rfl
      | succ rounds =>
          rw [readParts, if_neg (by rw [byte_and_128_eq_zero]; omega)]
          split
          · rfl
          · exact ih (fun b' hb' => h b' (List.mem_cons_of_mem _ hb'))

/-- What is read was written in some bytes, and is a value of the type. -/
theorem readInt_some
    {T : IntType} {input rest : List UInt8} {v : Int}
    (h : readInt T input = some (v, rest)) :
    T.InRange v ∧ ∃ bytes, 0 < bytes.length ∧ input = bytes ++ rest := by
  rcases exists_denotes input with ⟨bytes, tail, negative, n, rfl, hdenotes⟩ | hall
  · rw [readInt_of_denotes hdenotes tail, Option.ite_none_right_eq_some] at h
    obtain ⟨⟨_, hn⟩, h⟩ := h
    obtain ⟨v', hv', heq⟩ := Option.map_eq_some_iff.mp h
    obtain ⟨rfl, rfl⟩ : v' = v ∧ tail = rest := by simpa using heq
    refine ⟨?_, bytes, hdenotes.length_pos, rfl⟩
    have hpow : ((2 ^ T.digits : Nat) : Int) = 2 ^ T.digits := by
      rw [Nat.cast_pow]
      rfl
    cases negative with
    | false =>
        cases hv'
        rw [IntType.inRange_iff]
        exact ⟨.inr (by omega), by rw [magnitude, if_neg (by omega)]; omega⟩
    | true =>
        rw [if_pos rfl] at hv'
        rw [IntType.InRange]
        cases hT : T.isSigned with
        | true =>
            rw [negate_signed hT hn, Option.some.injEq] at hv'
            rw [if_pos rfl]
            omega
        | false =>
            rw [negate_unsigned hT hn, Option.ite_none_left_eq_some, Option.some.injEq] at hv'
            rw [if_neg (by simp)]
            omega
  · rw [readInt, readParts_none hall] at h
    cases h

end Integers

section Instructions

/-- The instructions, with what the handler is called with. -/
inductive Instruction where
  | insertGroupLevelTable (key : Int)
  | eraseGroupLevelTable (key : Int)
  | renameGroupLevelTable (key : Int)
  | selectTable (key : Int)
  | createObject (key : Int)
  | removeObject (key : Int)
  | modifyObject (col key : Int)
  | clearTable (oldSize : Int)
  | insertColumn (col : Int)
  | eraseColumn (col : Int)
  | renameColumn (col : Int)
  | setLinkType (col : Int)
  | selectList (col key : Int)
  | listInsert (ndx : Int)
  | listSet (ndx : Int)
  | listMove (fromNdx toNdx : Int)
  | listSwap (ndx1 ndx2 : Int)
  | listErase (ndx : Int)
  | listClear (oldSize : Int)
deriving DecidableEq

open Instruction IntType

/-- `append_simple_instr(code, numbers...)`. -/
def appendSimpleInstr (code : UInt8) (numbers : List (List UInt8)) : List UInt8 :=
  encodeInt int64 code.toNat ++ numbers.flatten

/-- The two methods of `TransactLogEncoder` that have no body in the header. -/
structure Selections where
  selectTable : Int → List UInt8
  selectList : Int → Int → List UInt8

/-- What the parser expects them to write: their code and their numbers, a table with
no levels. -/
structure Selections.Written (e : Selections) : Prop where
  selectTable : ∀ key, uint32.InRange key → ∃ T T', IntType.InRange T 0 ∧
    IntType.InRange T' key ∧
    e.selectTable key = appendSimpleInstr 10 [encodeInt T 0, encodeInt T' key]
  selectList : ∀ col key, int64.InRange col → int64.InRange key →
    e.selectList col key = appendSimpleInstr 30 [encodeInt int64 col, encodeInt int64 key]

/-- `TransactLogEncoder`, one method for each instruction; none for a failed assertion. -/
def encode (e : Selections) : Instruction → Option (List UInt8)
  | insertGroupLevelTable key => some (appendSimpleInstr 1 [encodeInt int64 key])
  | eraseGroupLevelTable key => some (appendSimpleInstr 2 [encodeInt int64 key])
  | renameGroupLevelTable key => some (appendSimpleInstr 3 [encodeInt int64 key])
  | selectTable key => some (e.selectTable key)
  | createObject key => some (appendSimpleInstr 11 [encodeInt int64 key])
  | removeObject key => some (appendSimpleInstr 12 [encodeInt int64 key])
  | modifyObject col key =>
      some (appendSimpleInstr 13 [encodeInt int64 col, encodeInt int64 key])
  | clearTable oldSize => some (appendSimpleInstr 15 [encodeInt size oldSize])
  | insertColumn col => some (appendSimpleInstr 20 [encodeInt int64 col])
  | eraseColumn col => some (appendSimpleInstr 21 [encodeInt int64 col])
  | renameColumn col => some (appendSimpleInstr 22 [encodeInt int64 col])
  | setLinkType col => some (appendSimpleInstr 23 [encodeInt int64 col])
  | selectList col key => some (e.selectList col key)
  | listInsert ndx => some (appendSimpleInstr 31 [encodeInt size ndx])
  | listSet ndx => some (appendSimpleInstr 32 [encodeInt size ndx])
  | listMove fromNdx toNdx =>
      if fromNdx = toNdx then none
      else some (appendSimpleInstr 33 [encodeInt size fromNdx, encodeInt size toNdx])
  | listSwap ndx1 ndx2 =>
      some (appendSimpleInstr 34 [encodeInt size ndx1, encodeInt size ndx2])
  | listErase ndx => some (appendSimpleInstr 35 [encodeInt size ndx])
  | listClear oldSize => some (appendSimpleInstr 36 [encodeInt size oldSize])

/-- An instruction with one number. -/
def read1 (T : IntType) (instr : Int → Instruction) (input : List UInt8) :
    Option (Instruction × List UInt8) :=
  (readInt T input).map (fun n => (instr n.1, n.2))

/-- An instruction with two numbers. -/
def read2 (T : IntType) (instr : Int → Int → Instruction) (input : List UInt8) :
    Option (Instruction × List UInt8) :=
  (readInt T input).bind (fun n => read1 T (instr n.1) n.2)

/-- `parse_one`; none for `BadTransactLog` and for a failed assertion. -/
def parseOne : List UInt8 → Option (Instruction × List UInt8)
  | [] => none
  | instr :: input =>
      match instr.toNat with
      | 13 => read2 int64 modifyObject input
      | 32 => read1 size listSet input
      | 11 => read1 int64 createObject input
      | 12 => read1 int64 removeObject input
      | 10 =>
          (readInt int32 input).bind (fun levels =>
            if levels.1 = 0 then read1 uint32 selectTable levels.2 else none)
      | 15 => read1 size clearTable input
      | 31 => read1 size listInsert input
      | 33 => read2 size listMove input
      | 34 => read2 size listSwap input
      | 35 => read1 size listErase input
      | 36 => read1 size listClear input
      | 30 => read2 int64 selectList input
      | 23 => read1 int64 setLinkType input
      | 20 => read1 int64 insertColumn input
      | 21 => read1 int64 eraseColumn input
      | 22 => read1 int64 renameColumn input
      | 1 => read1 uint32 insertGroupLevelTable input
      | 2 => read1 uint32 eraseGroupLevelTable input
      | 3 => read1 uint32 renameGroupLevelTable input
      -- also `instr_SetDefault`
      | _ => none

/-- The numbers of an instruction, each with the type it is read as. -/
def Instruction.numbers : Instruction → List (IntType × Int)
  | insertGroupLevelTable key => [(uint32, key)]
  | eraseGroupLevelTable key => [(uint32, key)]
  | renameGroupLevelTable key => [(uint32, key)]
  | selectTable key => [(uint32, key)]
  | createObject key => [(int64, key)]
  | removeObject key => [(int64, key)]
  | modifyObject col key => [(int64, col), (int64, key)]
  | clearTable oldSize => [(size, oldSize)]
  | insertColumn col => [(int64, col)]
  | eraseColumn col => [(int64, col)]
  | renameColumn col => [(int64, col)]
  | setLinkType col => [(int64, col)]
  | selectList col key => [(int64, col), (int64, key)]
  | listInsert ndx => [(size, ndx)]
  | listSet ndx => [(size, ndx)]
  | listMove fromNdx toNdx => [(size, fromNdx), (size, toNdx)]
  | listSwap ndx1 ndx2 => [(size, ndx1), (size, ndx2)]
  | listErase ndx => [(size, ndx)]
  | listClear oldSize => [(size, oldSize)]

/-- Every number is a value of its type. -/
def Instruction.InRange (instr : Instruction) : Prop :=
  ∀ n ∈ instr.numbers, n.1.InRange n.2

instance (instr : Instruction) : Decidable instr.InRange :=
  inferInstanceAs (Decidable (∀ n ∈ instr.numbers, n.1.InRange n.2))

theorem read1_some
    {T : IntType} {instr : Int → Instruction} {input rest : List UInt8} {i : Instruction}
    (h : read1 T instr input = some (i, rest)) :
    rest.length < input.length ∧ ∃ n, T.InRange n ∧ i = instr n := by
  obtain ⟨⟨n, tail⟩, hread, heq⟩ := Option.map_eq_some_iff.mp h
  obtain ⟨rfl, rfl⟩ : instr n = i ∧ tail = rest := by simpa using heq
  obtain ⟨hn, bytes, hpos, rfl⟩ := readInt_some hread
  refine ⟨?_, n, hn, rfl⟩
  rw [List.length_append]
  omega

theorem read2_some
    {T : IntType} {instr : Int → Int → Instruction} {input rest : List UInt8}
    {i : Instruction}
    (h : read2 T instr input = some (i, rest)) :
    rest.length < input.length ∧ ∃ n m, T.InRange n ∧ T.InRange m ∧ i = instr n m := by
  obtain ⟨⟨n, tail⟩, hread, hsecond⟩ := Option.bind_eq_some_iff.mp h
  obtain ⟨hn, bytes, hpos, rfl⟩ := readInt_some hread
  obtain ⟨hlength, m, hm, rfl⟩ := read1_some hsecond
  refine ⟨?_, n, m, hn, hm, rfl⟩
  rw [List.length_append]
  simp only at hlength
  omega

/-- What the parser accepts has numbers in range, and at least two bytes. -/
theorem parseOne_some
    {input rest : List UInt8} {i : Instruction}
    (h : parseOne input = some (i, rest)) :
    i.InRange ∧ rest.length < input.length := by
  cases input with
  | nil => cases h
  | cons c input =>
      have h1 : ∀ {T instr}, read1 T instr input = some (i, rest) →
          (∀ n, (instr n).numbers = [(T, n)]) →
          i.InRange ∧ rest.length < (c :: input).length := by
        intro T instr hread hnumbers
        obtain ⟨hlength, n, hn, rfl⟩ := read1_some hread
        refine ⟨?_, by rw [List.length_cons]; omega⟩
        rw [Instruction.InRange, hnumbers]
        simpa using hn
      have h2 : ∀ {T instr}, read2 T instr input = some (i, rest) →
          (∀ n m, (instr n m).numbers = [(T, n), (T, m)]) →
          i.InRange ∧ rest.length < (c :: input).length := by
        intro T instr hread hnumbers
        obtain ⟨hlength, n, m, hn, hm, rfl⟩ := read2_some hread
        refine ⟨?_, by rw [List.length_cons]; omega⟩
        rw [Instruction.InRange, hnumbers]
        simpa using ⟨hn, hm⟩
      rw [parseOne] at h
      split at h
      all_goals first
        | exact h1 h (fun _ => rfl)
        | exact h2 h (fun _ _ => rfl)
        | skip
      · obtain ⟨⟨levels, tail⟩, hread, hkey⟩ := Option.bind_eq_some_iff.mp h
        rw [Option.ite_none_right_eq_some] at hkey
        obtain ⟨_, bytes, hpos, rfl⟩ := readInt_some hread
        obtain ⟨hlength, n, hn, rfl⟩ := read1_some hkey.2
        refine ⟨?_, ?_⟩
        · simpa [Instruction.InRange, Instruction.numbers] using hn
        · rw [List.length_cons, List.length_append]
          simp only at hlength
          omega
      · cases h

/-- `parse`: the instructions that the handler gets, and whether the log was good. -/
def parse (input : List UInt8) : List Instruction × Bool :=
  match input with
  | [] => ([], true)
  | c :: input =>
      match h : parseOne (c :: input) with
      | none => ([], false)
      | some (instr, rest) =>
          have : rest.length < (c :: input).length := (parseOne_some h).2
          let parsed := parse rest
          (instr :: parsed.1, parsed.2)
termination_by input.length
decreasing_by
  exact this

theorem parse_of_parseOne
    {input rest : List UInt8} {instr : Instruction}
    (h : parseOne input = some (instr, rest)) :
    parse input = (instr :: (parse rest).1, (parse rest).2) := by
  cases input with
  | nil => cases h
  | cons c input =>
      rw [parse]
      split
      next hnone =>
        rw [h] at hnone
        cases hnone
      next instr' rest' hsome =>
        rw [h] at hsome
        cases hsome
        rfl

/-- The kind of an instruction is one byte. -/
theorem encodeInt_code
    {code : UInt8}
    (h : code.toNat < 64) :
    encodeInt int64 code.toNat = [code] := by
  have hnonneg : ¬ ((code.toNat : Int) < 0) := by omega
  have hshift : code.toNat >>> 6 = 0 := by
    rw [Nat.shiftRight_eq_div_pow]
    omega
  simp [encodeInt, hnonneg, encodeParts, int64, maxBytes, hshift, lastByte]

theorem int64_of_uint32
    {v : Int}
    (h : uint32.InRange v) :
    int64.InRange v := by
  simp only [IntType.InRange, uint32, int64] at h ⊢
  constructor <;> norm_num at h ⊢ <;> omega

theorem read1_encode
    {T T' : IntType} {v : Int}
    (hv : T.InRange v)
    (hv' : T'.InRange v)
    (instr : Int → Instruction) (rest : List UInt8) :
    read1 T' instr (encodeInt T v ++ rest) = some (instr v, rest) := by
  rw [read1, readInt_encodeInt hv, if_pos hv']
  rfl

theorem read2_encode
    {T : IntType} {v w : Int}
    (hv : T.InRange v)
    (hw : T.InRange w)
    (instr : Int → Int → Instruction) (rest : List UInt8) :
    read2 T instr (encodeInt T v ++ (encodeInt T w ++ rest)) = some (instr v w, rest) := by
  rw [read2, readInt_encodeInt hv, if_pos hv, Option.bind_some]
  exact read1_encode hw hw (instr v) rest

theorem appendSimpleInstr_one
    {code : UInt8}
    (hcode : code.toNat < 64)
    (n rest : List UInt8) :
    appendSimpleInstr code [n] ++ rest = code :: (n ++ rest) := by
  simp [appendSimpleInstr, encodeInt_code hcode]

theorem appendSimpleInstr_two
    {code : UInt8}
    (hcode : code.toNat < 64)
    (n m rest : List UInt8) :
    appendSimpleInstr code [n, m] ++ rest = code :: (n ++ (m ++ rest)) := by
  simp [appendSimpleInstr, encodeInt_code hcode]

section Encoded

variable {e : Selections}

theorem parseOne_selectTable
    {T T' : IntType} {key : Int}
    (hT : T.InRange 0)
    (hT' : T'.InRange key)
    (hkey : uint32.InRange key)
    (rest : List UInt8) :
    parseOne (appendSimpleInstr 10 [encodeInt T 0, encodeInt T' key] ++ rest) =
      some (selectTable key, rest) := by
  rw [appendSimpleInstr_two (by decide)]
  change (readInt int32 (encodeInt T 0 ++ (encodeInt T' key ++ rest))).bind _ = _
  rw [readInt_encodeInt hT, if_pos (by decide), Option.bind_some, if_pos rfl]
  exact read1_encode hT' hkey _ rest

/-- An instruction that the encoder wrote is parsed as what it was. -/
theorem parseOne_encode
    (he : e.Written)
    {instr : Instruction} {bytes : List UInt8}
    (h : encode e instr = some bytes)
    (hrange : instr.InRange)
    (rest : List UInt8) :
    parseOne (bytes ++ rest) = some (instr, rest) := by
  cases instr with
  | selectTable key =>
      have hkey := hrange (uint32, key) List.mem_cons_self
      obtain ⟨T, T', hT, hT', hbytes⟩ := he.selectTable key hkey
      cases h
      rw [hbytes]
      exact parseOne_selectTable hT hT' hkey rest
  | selectList col key =>
      have hcol := hrange (int64, col) List.mem_cons_self
      have hkey := hrange (int64, key) (List.mem_cons_of_mem _ List.mem_cons_self)
      cases h
      rw [he.selectList col key hcol hkey, appendSimpleInstr_two (by decide)]
      exact read2_encode hcol hkey _ rest
  | insertGroupLevelTable key | eraseGroupLevelTable key | renameGroupLevelTable key =>
      have hkey := hrange (uint32, key) List.mem_cons_self
      cases h
      rw [appendSimpleInstr_one (by decide)]
      exact read1_encode (int64_of_uint32 hkey) hkey _ rest
  | createObject key | removeObject key | insertColumn key | eraseColumn key
  | renameColumn key | setLinkType key =>
      have hkey := hrange (int64, key) List.mem_cons_self
      cases h
      rw [appendSimpleInstr_one (by decide)]
      exact read1_encode hkey hkey _ rest
  | clearTable ndx | listInsert ndx | listSet ndx | listErase ndx | listClear ndx =>
      have hndx := hrange (size, ndx) List.mem_cons_self
      cases h
      rw [appendSimpleInstr_one (by decide)]
      exact read1_encode hndx hndx _ rest
  | modifyObject col key =>
      have hcol := hrange (int64, col) List.mem_cons_self
      have hkey := hrange (int64, key) (List.mem_cons_of_mem _ List.mem_cons_self)
      cases h
      rw [appendSimpleInstr_two (by decide)]
      exact read2_encode hcol hkey _ rest
  | listSwap ndx1 ndx2 =>
      have hndx1 := hrange (size, ndx1) List.mem_cons_self
      have hndx2 := hrange (size, ndx2) (List.mem_cons_of_mem _ List.mem_cons_self)
      cases h
      rw [appendSimpleInstr_two (by decide)]
      exact read2_encode hndx1 hndx2 _ rest
  | listMove fromNdx toNdx =>
      have hfrom := hrange (size, fromNdx) List.mem_cons_self
      have hto := hrange (size, toNdx) (List.mem_cons_of_mem _ List.mem_cons_self)
      rw [encode, Option.ite_none_left_eq_some] at h
      cases h.2
      rw [appendSimpleInstr_two (by decide)]
      exact read2_encode hfrom hto _ rest

/-- The log that the encoder writes. -/
def EncodedAs
    (e : Selections) (log : List Instruction) (chunks : List (List UInt8)) : Prop :=
  List.Forall₂ (fun instr bytes => encode e instr = some bytes) log chunks

/--
**What the encoder wrote, the parser hands on instruction by instruction, whatever
comes after it.**
-/
theorem parse_encode
    (he : e.Written)
    {log : List Instruction} {chunks : List (List UInt8)}
    (h : EncodedAs e log chunks)
    (hrange : ∀ instr ∈ log, instr.InRange)
    (rest : List UInt8) :
    parse (chunks.flatten ++ rest) = (log ++ (parse rest).1, (parse rest).2) := by
  induction h with
  | nil => rfl
  | @cons instr bytes log chunks hinstr htail ih =>
      have hone := parseOne_encode he hinstr (hrange instr List.mem_cons_self)
        (chunks.flatten ++ rest)
      have ih := ih (fun i hi => hrange i (List.mem_cons_of_mem _ hi))
      rw [List.flatten_cons, List.append_assoc, parse_of_parseOne hone, ih]
      rfl

/-- The two methods, as the parser expects them. -/
def selections : Selections where
  selectTable key := appendSimpleInstr 10 [encodeInt size 0, encodeInt uint32 key]
  selectList col key := appendSimpleInstr 30 [encodeInt int64 col, encodeInt int64 key]

theorem written_selections :
    selections.Written where
  selectTable _ hkey := ⟨size, uint32, by decide, hkey, rfl⟩
  selectList _ _ _ _ := rfl

/-- An object is created and set, and its list gets an entry. -/
theorem parse_encode_createObject :
    parse [10, 0, 7, 11, 5, 13, 66, 5, 30, 3, 5, 31, 0] =
      ([selectTable 7, createObject 5, modifyObject (-3) 5, selectList 3 5, listInsert 0],
        true) := by
  have h : EncodedAs selections
      [selectTable 7, createObject 5, modifyObject (-3) 5, selectList 3 5, listInsert 0]
      [[10, 0, 7], [11, 5], [13, 66, 5], [30, 3, 5], [31, 0]] :=
    .cons rfl (.cons rfl (.cons rfl (.cons rfl (.cons rfl .nil))))
  have hparse := parse_encode written_selections h (by decide) []
  rwa [parse] at hparse

end Encoded

section Truncated

variable {e : Selections}
variable {front back : List UInt8}

theorem readInt_truncated
    {T : IntType} {v : Int}
    (hv : T.InRange v)
    (h : encodeInt T v = front ++ back)
    (hback : back ≠ [])
    (T' : IntType) :
    readInt T' front = none := by
  have hdenotes := (denotes_encodeInt hv).1
  rw [h] at hdenotes
  rw [readInt, readParts_none (hdenotes.high_of_append hback)]

theorem read1_truncated
    {T : IntType} {v : Int}
    (hv : T.InRange v)
    (h : encodeInt T v = front ++ back)
    (hback : back ≠ [])
    (T' : IntType) (instr : Int → Instruction) :
    read1 T' instr front = none := by
  rw [read1, readInt_truncated hv h hback]
  rfl

/-- Two numbers break off in the first one or in the second. -/
theorem bind_truncated
    {T T' : IntType} {v w : Int}
    (hv : T.InRange v)
    (h : encodeInt T v ++ encodeInt T' w = front ++ back)
    (hback : back ≠ [])
    (S : IntType)
    {next : Int × List UInt8 → Option (Instruction × List UInt8)}
    (hnext : ∀ u tail back, encodeInt T' w = tail ++ back → back ≠ [] →
      next (u, tail) = none) :
    (readInt S front).bind next = none := by
  rcases List.append_eq_append_iff.mp h with ⟨tail, rfl, hw'⟩ | ⟨tail, hv', rfl⟩
  · rw [readInt_encodeInt hv]
    split
    · exact hnext _ tail back hw' hback
    · split
      · exact hnext _ tail back hw' hback
      · rfl
  · by_cases htail : tail = []
    · subst htail
      rw [List.append_nil] at hv'
      rw [← hv', ← List.append_nil (encodeInt T v), readInt_encodeInt hv]
      split
      · exact hnext _ [] _ rfl hback
      · split
        · exact hnext _ [] _ rfl hback
        · rfl
    · rw [readInt_truncated hv hv' htail]
      rfl

theorem read2_truncated
    {T T' : IntType} {v w : Int}
    (hv : T.InRange v)
    (hw : T'.InRange w)
    (h : encodeInt T v ++ encodeInt T' w = front ++ back)
    (hback : back ≠ [])
    (S : IntType) (instr : Int → Int → Instruction) :
    read2 S instr front = none :=
  bind_truncated hv h hback S
    (fun u _ _ htail hrest => read1_truncated hw htail hrest S (instr u))

theorem appendSimpleInstr_eq_append
    {code : UInt8} {numbers : List (List UInt8)}
    (hcode : code.toNat < 64)
    (h : appendSimpleInstr code numbers = front ++ back)
    (hfront : front ≠ []) :
    ∃ tail, front = code :: tail ∧ numbers.flatten = tail ++ back := by
  rw [appendSimpleInstr, encodeInt_code hcode, List.singleton_append] at h
  cases front with
  | nil => exact absurd rfl hfront
  | cons c tail =>
      obtain ⟨rfl, htail⟩ := List.cons.inj h
      exact ⟨tail, rfl, htail⟩

/-- An instruction with one number breaks off in it. -/
theorem parseOne_truncated_one
    {code : UInt8} {T T' : IntType} {v : Int} {instr : Int → Instruction}
    (hcode : code.toNat < 64)
    (hv : T.InRange v)
    (h : appendSimpleInstr code [encodeInt T v] = front ++ back)
    (hfront : front ≠ [])
    (hback : back ≠ [])
    (hparse : ∀ input, parseOne (code :: input) = read1 T' instr input) :
    parseOne front = none := by
  obtain ⟨tail, rfl, hnumbers⟩ := appendSimpleInstr_eq_append hcode h hfront
  rw [List.flatten_cons, List.flatten_nil, List.append_nil] at hnumbers
  rw [hparse]
  exact read1_truncated hv hnumbers hback T' instr

theorem parseOne_truncated_two
    {code : UInt8} {T T' S : IntType} {v w : Int} {instr : Int → Int → Instruction}
    (hcode : code.toNat < 64)
    (hv : T.InRange v)
    (hw : T'.InRange w)
    (h : appendSimpleInstr code [encodeInt T v, encodeInt T' w] = front ++ back)
    (hfront : front ≠ [])
    (hback : back ≠ [])
    (hparse : ∀ input, parseOne (code :: input) = read2 S instr input) :
    parseOne front = none := by
  obtain ⟨tail, rfl, hnumbers⟩ := appendSimpleInstr_eq_append hcode h hfront
  rw [List.flatten_cons, List.flatten_cons, List.flatten_nil, List.append_nil] at hnumbers
  rw [hparse]
  exact read2_truncated hv hw hnumbers hback S instr

/-- An instruction that breaks off is none. -/
theorem parseOne_truncated
    (he : e.Written)
    {instr : Instruction}
    (h : encode e instr = some (front ++ back))
    (hrange : instr.InRange)
    (hback : back ≠ []) :
    parseOne front = none := by
  by_cases hfront : front = []
  · rw [hfront]
    rfl
  cases instr with
  | selectTable key =>
      have hkey := hrange (uint32, key) List.mem_cons_self
      obtain ⟨T, T', hT, hT', hbytes⟩ := he.selectTable key hkey
      rw [encode, hbytes, Option.some.injEq] at h
      obtain ⟨tail, rfl, hnumbers⟩ := appendSimpleInstr_eq_append (by decide) h hfront
      rw [List.flatten_cons, List.flatten_cons, List.flatten_nil, List.append_nil] at hnumbers
      refine bind_truncated hT hnumbers hback int32 ?_
      intro u tail' back' htail hrest
      simp only
      split
      · exact read1_truncated hT' htail hrest _ _
      · rfl
  | selectList col key =>
      have hcol := hrange (int64, col) List.mem_cons_self
      have hkey := hrange (int64, key) (List.mem_cons_of_mem _ List.mem_cons_self)
      rw [encode, he.selectList col key hcol hkey, Option.some.injEq] at h
      exact parseOne_truncated_two (by decide) hcol hkey h hfront hback (fun _ => rfl)
  | insertGroupLevelTable key | eraseGroupLevelTable key | renameGroupLevelTable key =>
      have hkey := int64_of_uint32 (hrange (uint32, key) List.mem_cons_self)
      exact parseOne_truncated_one (by decide) hkey (Option.some.inj h) hfront hback
        (fun _ => rfl)
  | createObject key | removeObject key | insertColumn key | eraseColumn key
  | renameColumn key | setLinkType key =>
      have hkey := hrange (int64, key) List.mem_cons_self
      exact parseOne_truncated_one (by decide) hkey (Option.some.inj h) hfront hback
        (fun _ => rfl)
  | clearTable ndx | listInsert ndx | listSet ndx | listErase ndx | listClear ndx =>
      have hndx := hrange (size, ndx) List.mem_cons_self
      exact parseOne_truncated_one (by decide) hndx (Option.some.inj h) hfront hback
        (fun _ => rfl)
  | modifyObject col key =>
      have hcol := hrange (int64, col) List.mem_cons_self
      have hkey := hrange (int64, key) (List.mem_cons_of_mem _ List.mem_cons_self)
      exact parseOne_truncated_two (by decide) hcol hkey (Option.some.inj h) hfront hback
        (fun _ => rfl)
  | listSwap ndx1 ndx2 =>
      have hndx1 := hrange (size, ndx1) List.mem_cons_self
      have hndx2 := hrange (size, ndx2) (List.mem_cons_of_mem _ List.mem_cons_self)
      exact parseOne_truncated_two (by decide) hndx1 hndx2 (Option.some.inj h) hfront hback
        (fun _ => rfl)
  | listMove fromNdx toNdx =>
      have hfrom := hrange (size, fromNdx) List.mem_cons_self
      have hto := hrange (size, toNdx) (List.mem_cons_of_mem _ List.mem_cons_self)
      rw [encode, Option.ite_none_left_eq_some] at h
      exact parseOne_truncated_two (by decide) hfrom hto (Option.some.inj h.2) hfront hback
        (fun _ => rfl)

theorem parse_of_parseOne_none
    {input : List UInt8}
    (h : parseOne input = none) :
    parse input = ([], input.isEmpty) := by
  cases input with
  | nil =>
      rw [parse]
      rfl
  | cons c input =>
      rw [parse]
      split
      · rfl
      next hsome =>
        rw [h] at hsome
        cases hsome

/--
**When a log that the encoder wrote breaks off, the parser hands on the instructions
that are there as a whole, and finds the log bad unless it broke off between two of
them.**
-/
theorem parse_truncated
    (he : e.Written)
    {log : List Instruction} {chunks : List (List UInt8)} {instr : Instruction}
    (hlog : EncodedAs e log chunks)
    (hinstr : encode e instr = some (front ++ back))
    (hrange : ∀ i ∈ instr :: log, i.InRange)
    (hback : back ≠ []) :
    parse (chunks.flatten ++ front) = (log, front.isEmpty) := by
  induction hlog with
  | nil =>
      exact parse_of_parseOne_none
        (parseOne_truncated he hinstr (hrange instr List.mem_cons_self) hback)
  | @cons i bytes log chunks hi htail ih =>
      have hone := parseOne_encode he hi
        (hrange i (List.mem_cons_of_mem _ List.mem_cons_self)) (chunks.flatten ++ front)
      have ih := ih (fun i' hi' => hrange i' (by
        rcases List.mem_cons.mp hi' with rfl | hi'
        · exact List.mem_cons_self
        · exact List.mem_cons_of_mem _ (List.mem_cons_of_mem _ hi')))
      rw [List.flatten_cons, List.append_assoc, parse_of_parseOne hone, ih]

/-- A log that breaks off in its second instruction. -/
theorem parse_truncated_modifyObject :
    parse [11, 5, 13, 66] = ([createObject 5], false) := by
  have hlog : EncodedAs selections [createObject 5] [[11, 5]] := .cons rfl .nil
  have hinstr : encode selections (modifyObject (-3) 5) = some ([13, 66] ++ [5]) := rfl
  exact parse_truncated written_selections hlog hinstr (by decide) (by simp)

end Truncated

end Instructions

end ObjectStore
end NotVK

import Mathlib.Data.List.Basic
import Mathlib.Data.List.TakeWhile
import Mathlib.Data.Char
import Mathlib.Tactic.Basic
import Mathlib.Tactic.IntervalCases

/-!
# Percent-encoding and form-url-encoding

`percentEncode allowed` writes every character that is not allowed as the
escapes of its UTF-8 bytes.  The serializer of
`application/x-www-form-urlencoded` is the one that allows letters, digits,
`*`, `-`, `.` and `_`, and writes a space as `+`; its parser turns `+` back into
a space before it undoes the escapes.

Texts are lists of characters.  Two facts carry the rest: undoing the escapes of
`percentEncode allowed` gives the text back when `%` is not allowed, and
percent-encoding leaves a text alone only if all of it is allowed.
-/

namespace NotVK
namespace Forms

section UTF8

/-- The UTF-8 bytes of a text. -/
def utf8 (s : List Char) : List UInt8 :=
  s.flatMap String.utf8EncodeChar

@[simp] theorem utf8_cons (c : Char) (s : List Char) :
    utf8 (c :: s) = String.utf8EncodeChar c ++ utf8 s := by
  rfl

theorem toByteArray_utf8 (s : List Char) :
    (utf8 s).toByteArray = (String.ofList s).toByteArray := by
  rfl

theorem utf8_injective {s t : List Char} (h : utf8 s = utf8 t) : s = t := by
  have hbytes : (String.ofList s).toByteArray = (String.ofList t).toByteArray := by
    rw [← toByteArray_utf8, ← toByteArray_utf8, h]
  have hstring := String.toByteArray_inj.mp hbytes
  simpa using congrArg String.toList hstring

/-- The string with these bytes, if they are the bytes of one. -/
def decodeUTF8 (bytes : List UInt8) : Option String :=
  String.fromUTF8? bytes.toByteArray

/-- Bytes decode to a string exactly when they are its bytes. -/
theorem decodeUTF8_eq_some_iff {bytes : List UInt8} {t : String} :
    decodeUTF8 bytes = some t
      ↔
    bytes = utf8 t.toList := by
  have ht : (utf8 t.toList).toByteArray = t.toByteArray := by
    rw [toByteArray_utf8, String.ofList_toList]
  unfold decodeUTF8 String.fromUTF8?
  constructor
  · intro h
    split at h
    · have hstring := Option.some.inj h
      have hbytes := congrArg String.toByteArray hstring
      rw [← ht] at hbytes
      exact List.toByteArray_inj.mp hbytes
    · cases h
  · intro h
    rw [h, ht, dif_pos t.isValidUTF8]
    rfl

end UTF8

section PercentEncoding

/-- Upper-case hexadecimal digit of `n < 16`. -/
def hexDigit (n : Nat) : Char :=
  if n < 10 then Char.ofNat (48 + n) else Char.ofNat (55 + n)

def hexValue (c : Char) : Option Nat :=
  if '0' ≤ c ∧ c ≤ '9' then some (c.toNat - 48)
  else if 'A' ≤ c ∧ c ≤ 'F' then some (c.toNat - 55)
  else if 'a' ≤ c ∧ c ≤ 'f' then some (c.toNat - 87)
  else none

def percentEncodeByte (b : UInt8) : List Char :=
  ['%', hexDigit (b.toNat / 16), hexDigit (b.toNat % 16)]

/-- Escape every character that is not allowed. -/
def percentEncode (allowed : Char → Bool) : List Char → List Char
  | [] => []
  | c :: s =>
      if allowed c then c :: percentEncode allowed s
      else (String.utf8EncodeChar c).flatMap percentEncodeByte ++
        percentEncode allowed s

/-- Undo the escapes; a `%` without two digits stands for itself. -/
def percentDecode : List Char → List UInt8
  | [] => []
  | c :: s =>
      if c = '%' then
        match s with
        | high :: low :: rest =>
            match hexValue high, hexValue low with
            | some h, some l => (h * 16 + l).toUInt8 :: percentDecode rest
            | _, _ => String.utf8EncodeChar c ++ percentDecode (high :: low :: rest)
        | s => String.utf8EncodeChar c ++ percentDecode s
      else String.utf8EncodeChar c ++ percentDecode s

theorem hexValue_hexDigit {n : Nat} (hn : n < 16) :
    hexValue (hexDigit n) = some n := by
  interval_cases n <;> decide

theorem percentDecode_cons_of_ne
    {c : Char} (s : List Char) (hc : c ≠ '%') :
    percentDecode (c :: s) = String.utf8EncodeChar c ++ percentDecode s := by
  rcases s with _ | ⟨high, _ | ⟨low, s⟩⟩ <;> simp [percentDecode, hc]

/-- An escape is undone. -/
theorem percentDecode_percentEncodeByte
    (b : UInt8) (s : List Char) :
    percentDecode (percentEncodeByte b ++ s) = b :: percentDecode s := by
  have hb : b.toNat < 256 := b.toNat_lt
  have hhigh := hexValue_hexDigit (n := b.toNat / 16) (by omega)
  have hlow := hexValue_hexDigit (n := b.toNat % 16) (by omega)
  have hbyte : b.toNat / 16 * 16 + b.toNat % 16 = b.toNat := by omega
  simp [percentEncodeByte, percentDecode, hhigh, hlow, hbyte]

theorem percentDecode_flatMap
    (bytes : List UInt8) (s : List Char) :
    percentDecode (bytes.flatMap percentEncodeByte ++ s) =
      bytes ++ percentDecode s := by
  induction bytes with
  | nil =>
      rfl
  | cons b bytes ih =>
      rw [List.flatMap_cons, List.append_assoc,
        percentDecode_percentEncodeByte, ih]
      rfl

/-- **Percent-decoding undoes percent-encoding.** -/
theorem percentDecode_percentEncode
    {allowed : Char → Bool}
    (hpercent : allowed '%' = false)
    (s : List Char) :
    percentDecode (percentEncode allowed s) = utf8 s := by
  induction s with
  | nil =>
      rfl
  | cons c s ih =>
      by_cases hc : allowed c = true
      · have hne : c ≠ '%' := by
          intro h
          rw [h, hpercent] at hc
          cases hc
        rw [percentEncode, if_pos hc, percentDecode_cons_of_ne _ hne, ih,
          utf8_cons]
      · rw [percentEncode, if_neg hc, percentDecode_flatMap, ih, utf8_cons]

theorem length_flatMap_percentEncodeByte (bytes : List UInt8) :
    (bytes.flatMap percentEncodeByte).length = 3 * bytes.length := by
  induction bytes with
  | nil =>
      rfl
  | cons b bytes ih =>
      rw [List.flatMap_cons, List.length_append, ih, List.length_cons]
      simp only [percentEncodeByte, List.length_cons, List.length_nil]
      omega

/-- The escapes of a character are at least three characters. -/
theorem length_escape (c : Char) :
    3 ≤ ((String.utf8EncodeChar c).flatMap percentEncodeByte).length := by
  have hpos : 0 < (String.utf8EncodeChar c).length :=
    List.length_pos_of_ne_nil String.utf8EncodeChar_ne_nil
  rw [length_flatMap_percentEncodeByte]
  omega

theorem length_percentEncode
    (allowed : Char → Bool) (s : List Char) :
    s.length ≤ (percentEncode allowed s).length := by
  induction s with
  | nil =>
      exact Nat.le_refl _
  | cons c s ih =>
      by_cases hc : allowed c = true
      · rw [percentEncode, if_pos hc, List.length_cons, List.length_cons]
        omega
      · have hescape := length_escape c
        rw [percentEncode, if_neg hc, List.length_append, List.length_cons]
        omega

/-- Percent-encoding leaves a text alone only if all of it is allowed. -/
theorem percentEncode_eq_self_iff
    {allowed : Char → Bool} {s : List Char} :
    percentEncode allowed s = s
      ↔
    ∀ c ∈ s, allowed c = true := by
  induction s with
  | nil =>
      simp [percentEncode]
  | cons c s ih =>
      by_cases hc : allowed c = true
      · rw [percentEncode, if_pos hc]
        simp [ih, hc]
      · have hescape := length_escape c
        have hrest := length_percentEncode allowed s
        constructor
        · intro h
          have hlength := congrArg List.length h
          rw [percentEncode, if_neg hc, List.length_append,
            List.length_cons] at hlength
          omega
        · intro h
          exact absurd (h c List.mem_cons_self) hc

theorem isAlphanum_hexDigit {n : Nat} (hn : n < 16) :
    (hexDigit n).isAlphanum = true := by
  interval_cases n <;> decide

/-- Escapes are made of `%`, letters and digits. -/
theorem mem_flatMap_percentEncodeByte
    {bytes : List UInt8} {d : Char}
    (h : d ∈ bytes.flatMap percentEncodeByte) :
    d = '%' ∨ d.isAlphanum = true := by
  obtain ⟨b, _, hd⟩ := List.mem_flatMap.mp h
  have hb : b.toNat < 256 := b.toNat_lt
  simp only [percentEncodeByte, List.mem_cons, List.not_mem_nil,
    or_false] at hd
  rcases hd with rfl | rfl | rfl
  · exact Or.inl rfl
  · exact Or.inr (isAlphanum_hexDigit (by omega))
  · exact Or.inr (isAlphanum_hexDigit (by omega))

theorem mem_percentEncode
    {allowed : Char → Bool} {s : List Char} {d : Char}
    (h : d ∈ percentEncode allowed s) :
    allowed d = true ∨ d = '%' ∨ d.isAlphanum = true := by
  induction s with
  | nil =>
      cases h
  | cons c s ih =>
      by_cases hc : allowed c = true
      · rw [percentEncode, if_pos hc] at h
        rcases List.mem_cons.mp h with rfl | h
        · exact Or.inl hc
        · exact ih h
      · rw [percentEncode, if_neg hc] at h
        rcases List.mem_append.mp h with h | h
        · exact Or.inr (mem_flatMap_percentEncodeByte h)
        · exact ih h

end PercentEncoding

section FormEncoding

/-- Characters that the form serializer writes as they are. -/
def isFormSafe (c : Char) : Bool :=
  c.isAlphanum || c == '*' || c == '-' || c == '.' || c == '_'

/-- Characters that the form serializer does not escape. -/
def formAllowed (c : Char) : Bool :=
  isFormSafe c || c == ' '

def spaceToPlus (c : Char) : Char :=
  if c = ' ' then '+' else c

def plusToSpace (c : Char) : Char :=
  if c = '+' then ' ' else c

/-- The form serializer on a name or a value. -/
def formEncode (s : List Char) : List Char :=
  (percentEncode formAllowed s).map spaceToPlus

/-- The form parser on a name or a value. -/
def formDecode (s : List Char) : List UInt8 :=
  percentDecode (s.map plusToSpace)

theorem map_plusToSpace_of_not_mem
    {s : List Char} (h : '+' ∉ s) :
    s.map plusToSpace = s := by
  have hid : ∀ c ∈ s, plusToSpace c = id c := by
    intro c hc
    have hne : c ≠ '+' := fun heq => h (heq ▸ hc)
    rw [plusToSpace, if_neg hne, id]
  rw [List.map_congr_left hid, List.map_id]

theorem plus_not_mem_flatMap (bytes : List UInt8) :
    '+' ∉ bytes.flatMap percentEncodeByte := by
  intro h
  rcases mem_flatMap_percentEncodeByte h with h | h
  · cases h
  · cases h

/-- Turning `+` back into spaces leaves the percent-encoded text. -/
theorem map_plusToSpace_formEncode (s : List Char) :
    (formEncode s).map plusToSpace = percentEncode formAllowed s := by
  have hid : ∀ c ∈ percentEncode formAllowed s,
      (plusToSpace ∘ spaceToPlus) c = id c := by
    intro c hc
    have hne : c ≠ '+' := by
      rintro rfl
      rcases mem_percentEncode hc with h | h | h <;> cases h
    by_cases hspace : c = ' '
    · subst hspace
      rfl
    · simp [spaceToPlus, plusToSpace, hspace, hne]
  rw [formEncode, List.map_map, List.map_congr_left hid, List.map_id]

/-- **The form parser undoes the form serializer.** -/
theorem formDecode_formEncode (s : List Char) :
    formDecode (formEncode s) = utf8 s := by
  rw [formDecode, map_plusToSpace_formEncode]
  exact percentDecode_percentEncode (by decide) s

theorem formEncode_injective {s t : List Char}
    (h : formEncode s = formEncode t) : s = t := by
  apply utf8_injective
  rw [← formDecode_formEncode, ← formDecode_formEncode, h]

/-- The form parser on a text that was percent-encoded with `+` left alone. -/
theorem formDecode_percentEncode
    {allowed : Char → Bool}
    (hplus : allowed '+' = true)
    (hpercent : allowed '%' = false)
    (s : List Char) :
    formDecode (percentEncode allowed s) = utf8 (s.map plusToSpace) := by
  unfold formDecode
  induction s with
  | nil =>
      rfl
  | cons c s ih =>
      by_cases hc : allowed c = true
      · have hne : plusToSpace c ≠ '%' := by
          unfold plusToSpace
          split
          · decide
          · rintro rfl
            rw [hpercent] at hc
            cases hc
        rw [percentEncode, if_pos hc, List.map_cons,
          percentDecode_cons_of_ne _ hne, ih, List.map_cons, utf8_cons]
      · have hc' : plusToSpace c = c := by
          rw [plusToSpace, if_neg]
          rintro rfl
          exact hc hplus
        rw [percentEncode, if_neg hc, List.map_append,
          map_plusToSpace_of_not_mem (plus_not_mem_flatMap _),
          percentDecode_flatMap, ih, List.map_cons, utf8_cons, hc']

/--
**A text that is form-encoded and then percent-encoded again survives one form
decoding if and only if it has nothing to escape.**
-/
theorem formDecode_twice_encoded_iff
    {allowed : Char → Bool}
    (hplus : allowed '+' = true)
    (hpercent : allowed '%' = false)
    {s : List Char} :
    formDecode (percentEncode allowed (formEncode s)) = utf8 s
      ↔
    ∀ c ∈ s, formAllowed c = true := by
  rw [formDecode_percentEncode hplus hpercent, map_plusToSpace_formEncode,
    ← percentEncode_eq_self_iff]
  constructor
  · exact utf8_injective
  · intro h
    rw [h]

/-- Encoded names and values have no separators. -/
theorem not_mem_formEncode
    {s : List Char} {d : Char}
    (hd : d = '&' ∨ d = '=') :
    d ∉ formEncode s := by
  intro h
  obtain ⟨c, hc, rfl⟩ := List.mem_map.mp h
  have hplain : spaceToPlus c = c := by
    rw [spaceToPlus, if_neg]
    rintro rfl
    rcases hd with hd | hd <;> cases hd
  rw [hplain] at hd
  rcases mem_percentEncode hc with h | h | h <;>
    rcases hd with rfl | rfl <;> cases h

end FormEncoding

section Pairs

/-- `name=value`. -/
def pairText (p : List Char × List Char) : List Char :=
  p.1 ++ '=' :: p.2

/-- The pairs joined by `&`. -/
def joinPairs (ps : List (List Char × List Char)) : List Char :=
  ['&'].intercalate (ps.map pairText)

/-- Name and value around the first `=`. -/
def splitPair (text : List Char) : List Char × List Char :=
  (text.takeWhile (· ≠ '='), (text.dropWhile (· ≠ '=')).drop 1)

def splitPairs (text : List Char) : List (List Char × List Char) :=
  (text.splitOn '&').map splitPair

theorem splitOn_joinPairs
    {ps : List (List Char × List Char)}
    (hne : ps ≠ [])
    (h : ∀ p ∈ ps, '&' ∉ p.1 ∧ '&' ∉ p.2) :
    (joinPairs ps).splitOn '&' = ps.map pairText := by
  apply List.splitOn_intercalate
  · intro text htext
    obtain ⟨p, hp, rfl⟩ := List.mem_map.mp htext
    obtain ⟨hname, hvalue⟩ := h p hp
    simp [pairText, hname, hvalue]
  · simpa using hne

theorem splitOn_pairText
    {p : List Char × List Char}
    (hname : '=' ∉ p.1) :
    (pairText p).splitOn '=' = p.1 :: p.2.splitOn '=' :=
  List.splitOn_append_cons_self_of_not_mem hname p.2

theorem all_ne_of_not_mem
    {s : List Char} {d : Char} (h : d ∉ s) :
    ∀ c ∈ s, (decide (c ≠ d)) = true := by
  intro c hc
  rw [decide_eq_true_eq]
  rintro rfl
  exact h hc

theorem splitPair_pairText
    {p : List Char × List Char}
    (hname : '=' ∉ p.1) :
    splitPair (pairText p) = p := by
  have hall := all_ne_of_not_mem hname
  rw [splitPair, pairText, List.takeWhile_append_of_pos hall,
    List.dropWhile_append_of_pos hall]
  simp

/-- Splitting undoes joining. -/
theorem splitPairs_joinPairs
    {ps : List (List Char × List Char)}
    (hne : ps ≠ [])
    (h : ∀ p ∈ ps, '&' ∉ p.1 ∧ '&' ∉ p.2)
    (hname : ∀ p ∈ ps, '=' ∉ p.1) :
    splitPairs (joinPairs ps) = ps := by
  have hid : ∀ p ∈ ps, (splitPair ∘ pairText) p = id p :=
    fun p hp => splitPair_pairText (hname p hp)
  rw [splitPairs, splitOn_joinPairs hne h, List.map_map,
    List.map_congr_left hid, List.map_id]

/-- No part of a split contains the separator. -/
theorem not_mem_of_mem_splitOn
    {text part : List Char} {separator : Char}
    (h : part ∈ text.splitOn separator) :
    separator ∉ part := by
  induction text generalizing part with
  | nil =>
      rw [List.splitOn_nil, List.mem_singleton] at h
      simp [h]
  | cons c text ih =>
      obtain ⟨first, rest, hsplit⟩ :=
        List.exists_cons_of_ne_nil (List.splitOn_ne_nil separator text)
      rw [List.splitOn_cons_eq_if_modifyHead, hsplit] at h
      rw [hsplit] at ih
      by_cases hc : c = separator
      · rw [if_pos (by simpa using hc)] at h
        rcases List.mem_cons.mp h with rfl | h
        · exact List.not_mem_nil
        · exact ih h
      · rw [if_neg (by simpa using hc), List.modifyHead_cons] at h
        rcases List.mem_cons.mp h with rfl | h
        · have hfirst := ih List.mem_cons_self
          simp [hfirst, Ne.symm hc]
        · exact ih (List.mem_cons_of_mem _ h)

/-- A split has a second part exactly when the separator occurs. -/
theorem two_le_length_splitOn_iff
    {text : List Char} {separator : Char} :
    2 ≤ (text.splitOn separator).length
      ↔
    separator ∈ text := by
  constructor
  · intro h
    by_contra hmem
    rw [List.splitOn_eq_singleton hmem] at h
    simp at h
  · intro hmem
    obtain ⟨before, after, hsplit, hbefore⟩ := List.eq_append_cons_of_mem hmem
    have hlength := List.length_pos_of_ne_nil
      (List.splitOn_ne_nil separator after)
    rw [hsplit, List.splitOn_append_cons_self_of_not_mem hbefore,
      List.length_cons]
    omega

theorem not_mem_splitPair_fst (text : List Char) :
    '=' ∉ (splitPair text).1 := by
  intro h
  have hne := List.mem_takeWhile_imp h
  simp at hne

/-- A text with a `=` is the text of its name and value. -/
theorem pairText_splitPair
    {text : List Char}
    (h : '=' ∈ text) :
    pairText (splitPair text) = text := by
  obtain ⟨name, value, rfl, hname⟩ := List.eq_append_cons_of_mem h
  have hpair : splitPair (name ++ '=' :: value) = (name, value) :=
    splitPair_pairText (p := (name, value)) hname
  rw [hpair]
  rfl

/-- Joining undoes splitting when every component has a `=`. -/
theorem joinPairs_splitPairs
    {text : List Char}
    (h : ∀ component ∈ text.splitOn '&', '=' ∈ component) :
    joinPairs (splitPairs text) = text := by
  have hid : ∀ component ∈ text.splitOn '&',
      (pairText ∘ splitPair) component = id component :=
    fun component hcomponent => pairText_splitPair (h component hcomponent)
  rw [joinPairs, splitPairs, List.map_map, List.map_congr_left hid, List.map_id]
  exact List.intercalate_splitOn '&'

/-- The names and values that splitting finds. -/
theorem splitPairs_separated
    {text : List Char} {p : List Char × List Char}
    (hp : p ∈ splitPairs text) :
    ('&' ∉ p.1 ∧ '&' ∉ p.2) ∧ '=' ∉ p.1 := by
  obtain ⟨component, hcomponent, rfl⟩ := List.mem_map.mp hp
  have hamp := not_mem_of_mem_splitOn hcomponent
  refine ⟨⟨?_, ?_⟩, not_mem_splitPair_fst component⟩
  · exact fun h => hamp (List.takeWhile_subset _ h)
  · intro h
    apply hamp
    exact List.dropWhile_subset _ (List.mem_of_mem_drop h)

theorem splitPairs_ne_nil (text : List Char) :
    splitPairs text ≠ [] := by
  simp [splitPairs]

end Pairs

end Forms
end NotVK

/-
  Subject:   The spellings of a UUID that the event store accepts, and the one it keeps.

  A spelling is 32 hexadecimal digits of either case, with a hyphen allowed after every second byte and
  with braces around it or not. The bytes are written by the library of UUIDs, which is a parameter.

  * **`parseUUID_hyphenated`** -- what is written denotes the bytes it was written from, so spellings
    have one canonical form exactly when they denote the same bytes (`canonicalUUID_eq_iff`);
  * `Spelling` -- the texts that denote a number; **`canonical_form_exact`** -- they are what is accepted.
-/
import Mathlib.Data.Fintype.Basic
import Mathlib.Data.Nat.Digits.Defs
import Mathlib.Tactic.FinCases
import MlmForge.Basis.Text

namespace MlmForge.Platform

open Option List

/-! ## 1. Reading -/

def hyphen : UInt8 := 45

def braceOpen : UInt8 := 123

def braceClose : UInt8 := 125

/-- `strings.CutPrefix` of a single byte. -/
def cutByte (c : UInt8) (t : Text) : Text × Bool :=
  match t with
  | [] => ([], false)
  | b :: rest => if b = c then (rest, true) else (b :: rest, false)

def fromHexChar (b : UInt8) : Option UInt8 :=
  if 48 ≤ b ∧ b ≤ 57 then some (b - 48)
  else if 97 ≤ b ∧ b ≤ 102 then some (b - 87)
  else if 65 ≤ b ∧ b ≤ 70 then some (b - 55)
  else none

/-- `hex.Decode` of one byte. -/
def decodeHex (a b : UInt8) : Option UInt8 := do
  let x ← fromHexChar a
  let y ← fromHexChar b
  some (x * 16 + y)

/-- The loop over the bytes of an id; with `n + 1` bytes left it reads the byte at `15 - n`. -/
def readBytes : Nat → Text → Option (List UInt8 × Text)
  | 0, rest => some ([], rest)
  | n + 1, a :: b :: rest => do
      let x ← decodeHex a b
      let rest := if (15 - n) % 2 = 1 ∧ 15 - n < 15 then (cutByte hyphen rest).1 else rest
      let (xs, rest) ← readBytes n rest
      some (x :: xs, rest)
  | _ + 1, _ => none

/-- The bytes that a spelling denotes. -/
def parseUUID (id : Text) : Option (List UInt8) :=
  let (rest, braced) := cutByte braceOpen id
  match readBytes 16 rest with
  | none => none
  | some (u, rest) =>
    if braced then
      let (rest, closed) := cutByte braceClose rest
      if closed ∧ rest = [] then some u else none
    else if rest = [] then some u else none

/-! ## 2. Writing -/

def hexChar (n : UInt8) : UInt8 := if n < 10 then n + 48 else n + 87

/-- A byte as two digits. -/
def hexPair (b : UInt8) : Text := [hexChar (b / 16), hexChar (b % 16)]

def hyphenated (u : List UInt8) : Text :=
  (u.take 4).flatMap hexPair ++ hyphen :: (((u.drop 4).take 2).flatMap hexPair ++
    hyphen :: (((u.drop 6).take 2).flatMap hexPair ++ hyphen :: (((u.drop 8).take 2).flatMap hexPair ++
      hyphen :: (u.drop 10).flatMap hexPair)))

/-- **The library of UUIDs**: `UUID.String` and `Parse`, with what is documented of them. -/
class UuidLib where
  string : List UInt8 → Text
  parse : Text → Option (List UInt8)
  string_eq : ∀ u : List UInt8, u.length = 16 → string u = hyphenated u
  parse_string : ∀ u : List UInt8, u.length = 16 → parse (string u) = some u

/-- A spelling in lowercase hyphenated form, if it is one. -/
def canonicalUUID [UuidLib] (id : Text) : Option Text := (parseUUID id).map UuidLib.string

/-! ## 3. The spellings -/

/-- A hexadecimal digit of either case. -/
def IsHexDigit (c : UInt8) : Prop := (48 ≤ c ∧ c ≤ 57) ∨ (97 ≤ c ∧ c ≤ 102) ∨ (65 ≤ c ∧ c ≤ 70)

instance (c : UInt8) : Decidable (IsHexDigit c) :=
  inferInstanceAs (Decidable ((48 ≤ c ∧ c ≤ 57) ∨ (97 ≤ c ∧ c ≤ 102) ∨ (65 ≤ c ∧ c ≤ 70)))

def digitValue (c : UInt8) : Nat :=
  if c ≤ 57 then c.toNat - 48 else if c ≤ 70 then c.toNat - 55 else c.toNat - 87

/-- Digits in groups of four, with a hyphen or none between two groups. -/
def grouped : Text → List Bool → Text
  | digits, [] => digits
  | digits, h :: hyphens =>
    digits.take 4 ++ ((if h then [hyphen] else []) ++ grouped (digits.drop 4) hyphens)

/-- **A spelling**: 32 digits, which of the seven places between groups have a hyphen, and whether there are
    braces. -/
structure Spelling where
  digits : Text
  hyphens : List Bool
  braced : Bool
  hex : ∀ c ∈ digits, IsHexDigit c
  digits_length : digits.length = 32
  hyphens_length : hyphens.length = 7

namespace Spelling

def text (s : Spelling) : Text :=
  if s.braced then braceOpen :: (grouped s.digits s.hyphens ++ [braceClose]) else grouped s.digits s.hyphens

/-- The number that the digits denote. -/
def value (s : Spelling) : Nat := Nat.ofDigits 16 (s.digits.map digitValue).reverse

end Spelling

theorem fromHexChar_eq (c : UInt8) :
    fromHexChar c = if IsHexDigit c then some (UInt8.ofNat (digitValue c)) else none := by
  have hall : ∀ n : Fin 256, fromHexChar (UInt8.ofFin n) = if IsHexDigit (UInt8.ofFin n) then
      some (UInt8.ofNat (digitValue (UInt8.ofFin n))) else none := by decide +kernel
  exact hall c.toFin

variable {c : UInt8}

theorem digitValue_lt (h : IsHexDigit c) : digitValue c < 16 := by
  have hall : ∀ n : Fin 256, IsHexDigit (UInt8.ofFin n) → digitValue (UInt8.ofFin n) < 16 := by
    decide +kernel
  exact hall c.toFin h

/-- The bytes of digits, two each. -/
def bytesOf : List Nat → List UInt8
  | a :: b :: rest => UInt8.ofNat (a * 16 + b) :: bytesOf rest
  | _ => []

theorem decodeHex_eq_some {a b x : UInt8} : decodeHex a b = some x ↔
    (IsHexDigit a ∧ IsHexDigit b) ∧ x = UInt8.ofNat (digitValue a * 16 + digitValue b) := by
  rw [decodeHex, fromHexChar_eq, fromHexChar_eq]
  by_cases ha : IsHexDigit a <;> by_cases hb : IsHexDigit b <;> simp [ha, hb, eq_comm]

theorem length_bytesOf : ∀ l : List Nat, (bytesOf l).length = l.length / 2
  | [] => rfl
  | [_] => by simp [bytesOf]
  | a :: b :: l => by
    rw [bytesOf, length_cons, length_bytesOf l, length_cons, length_cons]
    omega

theorem bytesOf_inj : ∀ {l l' : List Nat}, l.length = l'.length → l.length % 2 = 0 →
    (∀ n ∈ l, n < 16) → (∀ n ∈ l', n < 16) → bytesOf l = bytesOf l' → l = l'
  | [], [], _, _, _, _, _ => rfl
  | a :: b :: l, a' :: b' :: l', hlen, heven, hl, hl', h => by
    obtain ⟨hhead, htail⟩ := cons.inj h
    have hbyte := congrArg UInt8.toNat hhead
    simp only [UInt8.toNat_ofNat', mem_cons, forall_eq_or_imp, length_cons] at hbyte hl hl' hlen heven
    have hrest : l = l' := bytesOf_inj (by omega) (by omega) hl.2.2 hl'.2.2 htail
    have hhigh : a = a' ∧ b = b' := by omega
    rw [hrest, hhigh.1, hhigh.2]

variable {k : Nat}

theorem readBytes_group (hk : k ≤ 7) (a b c d : UInt8) (t : Text) :
    readBytes (2 * k + 2) (a :: b :: c :: d :: t) = (decodeHex a b).bind fun x =>
      (decodeHex c d).bind fun y => (readBytes (2 * k) (if k = 0 then t else (cutByte hyphen t).1)).map
        fun r => (x :: y :: r.1, r.2) := by
  have hodd : ((15 - 2 * k) % 2 = 1 ∧ 15 - 2 * k < 15) ↔ ¬ k = 0 := by omega
  rw [readBytes, if_neg (by omega)]
  simp only [readBytes, hodd, ite_not]
  cases decodeHex a b with
  | none => rfl
  | some x =>
    cases decodeHex c d with
    | none => rfl
    | some y => cases readBytes (2 * k) (if k = 0 then t else (cutByte hyphen t).1) <;> rfl

theorem eq_cut_append (c : UInt8) (t : Text) : t = (if (cutByte c t).2 then [c] else []) ++ (cutByte c t).1 := by
  unfold cutByte
  split
  · rfl
  · split
    · rename_i hb
      rw [hb]
      rfl
    · rfl

variable {u : List UInt8}

theorem group_of_readBytes (hk : k ≤ 7) {t r : Text}
    (h : readBytes (2 * k + 2) t = some (u, r)) : ∃ a b c d t' u', t = [a, b, c, d] ++ t' ∧
      (∀ x ∈ [a, b, c, d], IsHexDigit x) ∧
      readBytes (2 * k) (if k = 0 then t' else (cutByte hyphen t').1) = some (u', r) := by
  have heven : (14 - 2 * k) % 2 = 0 := by omega
  obtain _ | ⟨a, _ | ⟨b, _ | ⟨c, _ | ⟨d, t'⟩⟩⟩⟩ := t
  · cases h
  · cases h
  · simp [readBytes, heven] at h
  · simp [readBytes, heven] at h
  · rw [readBytes_group hk] at h
    obtain ⟨x, hx, h⟩ := bind_eq_some_iff.mp h
    obtain ⟨y, hy, h⟩ := bind_eq_some_iff.mp h
    obtain ⟨⟨u', r'⟩, hread, h⟩ := map_eq_some_iff.mp h
    cases h
    have hab := (decodeHex_eq_some.mp hx).1
    have hcd := (decodeHex_eq_some.mp hy).1
    exact ⟨a, b, c, d, t', u', rfl, by simp [hab, hcd], hread⟩

theorem grouped_of_readBytes (hk : k ≤ 7) : ∀ {t r : Text} {u : List UInt8},
    readBytes (2 * k + 2) t = some (u, r) → ∃ digits hyphens, (∀ c ∈ digits, IsHexDigit c) ∧
      digits.length = 4 * k + 4 ∧ hyphens.length = k ∧ t = grouped digits hyphens ++ r := by
  induction k with
  | zero =>
    intro t r u h
    obtain ⟨a, b, c, d, t', u', rfl, hhex, hread⟩ := group_of_readBytes hk h
    cases hread
    exact ⟨[a, b, c, d], [], hhex, rfl, rfl, rfl⟩
  | succ k ih =>
    intro t r u h
    obtain ⟨a, b, c, d, t', u', rfl, hhex, hread⟩ := group_of_readBytes hk h
    obtain ⟨digits, hyphens, hdigits, hlen, hcount, hrest⟩ := ih (by omega) hread
    refine ⟨[a, b, c, d] ++ digits, (cutByte hyphen t').2 :: hyphens, fun x hx => ?_, ?_, ?_, ?_⟩
    · exact (mem_append.mp hx).elim (hhex x) (hdigits x)
    · simp [hlen]
      omega
    · rw [length_cons, hcount]
    · have hcut := eq_cut_append hyphen t'
      rw [if_neg (Nat.succ_ne_zero k)] at hrest
      rw [hrest] at hcut
      rw [grouped, append_assoc, append_assoc]
      exact congrArg ([a, b, c, d] ++ ·) hcut

theorem cutByte_grouped (hc : ¬ IsHexDigit c) {digits : Text}
    (hhex : ∀ c ∈ digits, IsHexDigit c) (hne : digits ≠ []) (hyphens : List Bool) (r : Text) :
    cutByte c (grouped digits hyphens ++ r) = (grouped digits hyphens ++ r, false) := by
  obtain ⟨e, digits, rfl⟩ := exists_cons_of_ne_nil hne
  have hdigit : e ≠ c := by
    rintro rfl
    exact hc (hhex e mem_cons_self)
  obtain ⟨t, ht⟩ : ∃ t, grouped (e :: digits) hyphens = e :: t := by cases hyphens <;> exact ⟨_, rfl⟩
  rw [ht, cons_append, cutByte, if_neg hdigit]

/-- **Digits in groups are read**, as the bytes they denote. -/
theorem readBytes_grouped {hyphens : List Bool} (hk : hyphens.length ≤ 7) : ∀ {digits r : Text},
    (∀ c ∈ digits, IsHexDigit c) → digits.length = 4 * hyphens.length + 4 →
    readBytes (2 * hyphens.length + 2) (grouped digits hyphens ++ r) =
      some (bytesOf (digits.map digitValue), r) := by
  have hpair : ∀ {a b : UInt8}, IsHexDigit a → IsHexDigit b →
      decodeHex a b = some (UInt8.ofNat (digitValue a * 16 + digitValue b)) := fun ha hb =>
    decodeHex_eq_some.mpr ⟨⟨ha, hb⟩, rfl⟩
  induction hyphens with
  | nil =>
    intro digits r hhex hlen
    obtain ⟨a, b, c, d, rfl⟩ := length_eq_four.mp hlen
    simp only [mem_cons, not_mem_nil, or_false, forall_eq_or_imp, forall_eq] at hhex
    obtain ⟨ha, hb, hc, hd⟩ := hhex
    exact (readBytes_group (Nat.zero_le 7) a b c d r).trans (by rw [hpair ha hb, hpair hc hd]; rfl)
  | cons h hyphens ih =>
    intro digits r hhex hlen
    obtain ⟨a, b, c, d, digits, rfl⟩ : ∃ a b c d rest, digits = a :: b :: c :: d :: rest := by
      have hfour : (digits.take 4).length = 4 := by
        rw [length_take]
        omega
      obtain ⟨a, b, c, d, htake⟩ := length_eq_four.mp hfour
      exact ⟨a, b, c, d, digits.drop 4, by rw [← take_append_drop 4 digits, htake]; rfl⟩
    simp only [mem_cons, forall_eq_or_imp] at hhex
    obtain ⟨ha, hb, hc, hd, hhex⟩ := hhex
    have hrest : digits.length = 4 * hyphens.length + 4 := by
      simp only [length_cons] at hlen
      omega
    have hne : digits ≠ [] := ne_nil_of_length_pos (by omega)
    have hread := readBytes_group hk a b c d ((if h then [hyphen] else []) ++ grouped digits hyphens ++ r)
    have hcut : (cutByte hyphen ((if h then [hyphen] else []) ++ grouped digits hyphens ++ r)).1 =
        grouped digits hyphens ++ r := by
      cases h with
      | true => exact congrArg Prod.fst (if_pos rfl)
      | false => exact congrArg Prod.fst (cutByte_grouped (by decide) hhex hne hyphens r)
    rw [hpair ha hb, hpair hc hd, if_neg (show ¬ (h :: hyphens).length = 0 from Nat.succ_ne_zero _), hcut,
      length_cons, Nat.mul_succ, ih (by rw [length_cons] at hk; omega) hhex hrest] at hread
    rw [grouped, append_assoc]
    exact hread

namespace Spelling

variable (s : Spelling)

/-- **A spelling denotes the bytes of its digits.** -/
theorem parseUUID_text : parseUUID s.text = some (bytesOf (s.digits.map digitValue)) := by
  have hread : ∀ r, readBytes 16 (grouped s.digits s.hyphens ++ r) =
      some (bytesOf (s.digits.map digitValue), r) := fun r => by
    have h := readBytes_grouped (r := r) (Nat.le_of_eq s.hyphens_length) s.hex
      (by rw [s.digits_length, s.hyphens_length])
    rwa [s.hyphens_length] at h
  unfold text
  split
  · simp [parseUUID, cutByte, hread]
  · have hopen := cutByte_grouped (c := braceOpen) (by decide) s.hex
      (ne_nil_of_length_pos (by rw [s.digits_length]; decide)) s.hyphens []
    have hend := hread []
    rw [append_nil] at hopen hend
    simp [parseUUID, hopen, hend]

theorem digitValue_bound {n : Nat} (h : n ∈ s.digits.map digitValue) : n < 16 := by
  obtain ⟨c, hc, rfl⟩ := mem_map.mp h
  exact digitValue_lt (s.hex c hc)

end Spelling

variable {id : Text}

theorem exists_spelling (h : parseUUID id = some u) : ∃ s : Spelling, s.text = id := by
  have hid := eq_cut_append braceOpen id
  unfold parseUUID at h
  generalize cutByte braceOpen id = cut at h hid
  obtain ⟨rest, braced⟩ := cut
  simp only at h hid
  cases hread : readBytes 16 rest with
  | none =>
    rw [hread] at h
    cases h
  | some found =>
    obtain ⟨v, r⟩ := found
    obtain ⟨digits, hyphens, hhex, hlen, hcount, rfl⟩ := grouped_of_readBytes (k := 7) (Nat.le_refl 7) hread
    refine ⟨⟨digits, hyphens, braced, hhex, hlen, hcount⟩, ?_⟩
    rw [hread] at h
    cases braced with
    | true =>
      have hr := eq_cut_append braceClose r
      simp only [if_true] at h
      split at h
      · rename_i hclosed
        rw [hclosed.1, hclosed.2] at hr
        rw [hid, hr]
        rfl
      · cases h
    | false =>
      simp only [Bool.false_eq_true, if_false] at h
      split at h
      · rename_i hr
        rw [hid, hr, append_nil]
        rfl
      · cases h

/-! ## 4. Written and read back -/

theorem digits_hexPair (b : UInt8) : (IsHexDigit (hexChar (b / 16)) ∧ IsHexDigit (hexChar (b % 16))) ∧
    UInt8.ofNat (digitValue (hexChar (b / 16)) * 16 + digitValue (hexChar (b % 16))) = b := by
  have hall : ∀ n : Fin 256, (IsHexDigit (hexChar (UInt8.ofFin n / 16)) ∧
      IsHexDigit (hexChar (UInt8.ofFin n % 16))) ∧ UInt8.ofNat (digitValue (hexChar (UInt8.ofFin n / 16)) * 16 +
        digitValue (hexChar (UInt8.ofFin n % 16))) = UInt8.ofFin n := by decide +kernel
  exact hall b.toFin

theorem bytesOf_hexPairs (u : List UInt8) : bytesOf ((u.flatMap hexPair).map digitValue) = u := by
  induction u with
  | nil => rfl
  | cons b u ih => exact congr (congrArg cons (digits_hexPair b).2) ih

theorem exists_bytes (h : u.length = 16) : ∃ b0 b1 b2 b3 b4 b5 b6 b7 b8 b9 b10 b11 b12 b13 b14 b15,
    u = [b0, b1, b2, b3, b4, b5, b6, b7, b8, b9, b10, b11, b12, b13, b14, b15] := by
  match u, h with
  | [b0, b1, b2, b3, b4, b5, b6, b7, b8, b9, b10, b11, b12, b13, b14, b15], _ =>
    exact ⟨b0, b1, b2, b3, b4, b5, b6, b7, b8, b9, b10, b11, b12, b13, b14, b15, rfl⟩

/-- **What is written denotes what it was written from.** -/
theorem parseUUID_hyphenated (h : u.length = 16) : parseUUID (hyphenated u) = some u := by
  have hhex : ∀ c ∈ u.flatMap hexPair, IsHexDigit c := by
    intro c hc
    obtain ⟨b, -, hc⟩ := mem_flatMap.mp hc
    rcases mem_pair.mp hc with rfl | rfl
    · exact (digits_hexPair b).1.1
    · exact (digits_hexPair b).1.2
  obtain ⟨b0, b1, b2, b3, b4, b5, b6, b7, b8, b9, b10, b11, b12, b13, b14, b15, rfl⟩ := exists_bytes h
  have htext := Spelling.parseUUID_text
    ⟨_, [false, true, true, true, true, false, false], false, hhex, rfl, rfl⟩
  rw [bytesOf_hexPairs] at htext
  exact htext

theorem length_parseUUID (h : parseUUID id = some u) : u.length = 16 := by
  obtain ⟨s, rfl⟩ := exists_spelling h
  rw [s.parseUUID_text] at h
  rw [← some.inj h, length_bytesOf, length_map, s.digits_length]

/-! ## 5. The library in use -/

/-- The bytes whose digits start at some places. -/
def bytesAt (places : List Nat) (s : Text) : Option (List UInt8) :=
  places.mapM fun x => do
    let a ← s[x]?
    let b ← s[x + 1]?
    decodeHex a b

/-- A text of 36 bytes, or its first 36. -/
def parseHyphenated (s : Text) : Option (List UInt8) :=
  if [8, 13, 18, 23].all fun x => s[x]? = some hyphen then
    bytesAt [0, 2, 4, 6, 9, 11, 14, 16, 19, 21, 24, 26, 28, 30, 32, 34] s
  else none

/-- `Parse` of version 1.6.0, which looks neither at the braces nor at the case of `urn:uuid:`. -/
def googleParse (s : Text) : Option (List UInt8) :=
  match s.length with
  | 36 => parseHyphenated s
  | 45 =>
    let lower := (s.take 9).map fun b => if 65 ≤ b ∧ b ≤ 90 then b + 32 else b
    if lower = [117, 114, 110, 58, 117, 117, 105, 100, 58] then parseHyphenated (s.drop 9) else none
  | 38 => parseHyphenated (s.drop 1)
  | 32 => bytesAt ((List.range 16).map (2 * ·)) s
  | _ => none

theorem googleParse_hyphenated (h : u.length = 16) : googleParse (hyphenated u) = some u := by
  have hpair : ∀ b : UInt8, decodeHex (hexChar (b / 16)) (hexChar (b % 16)) = some b := fun b =>
    decodeHex_eq_some.mpr ⟨(digits_hexPair b).1, (digits_hexPair b).2.symm⟩
  obtain ⟨b0, b1, b2, b3, b4, b5, b6, b7, b8, b9, b10, b11, b12, b13, b14, b15, rfl⟩ := exists_bytes h
  simp [googleParse, hyphenated, hexPair, parseHyphenated, bytesAt, hpair]

/-- `google/uuid` -/
instance googleUuid : UuidLib where
  string := hyphenated
  parse := googleParse
  string_eq _ _ := rfl
  parse_string _ h := googleParse_hyphenated h

/-! ## 6. The canonical form -/

section Library

variable [UuidLib]

theorem parseUUID_string (h : u.length = 16) : parseUUID (UuidLib.string u) = some u := by
  rw [UuidLib.string_eq u h, parseUUID_hyphenated h]

/-- **Spellings have one canonical form exactly when they denote one UUID.** -/
theorem canonicalUUID_eq_iff {a b c : Text} (ha : canonicalUUID a = some c) :
    canonicalUUID b = some c ↔ parseUUID b = parseUUID a := by
  obtain ⟨u, hu, rfl⟩ := map_eq_some_iff.mp ha
  rw [hu]
  constructor
  · intro hb
    obtain ⟨v, hv, hvu⟩ := map_eq_some_iff.mp hb
    have hback := parseUUID_string (length_parseUUID hv)
    rw [hvu, parseUUID_string (length_parseUUID hu)] at hback
    rw [hv, hback]
  · intro hb
    rw [canonicalUUID, hb]
    rfl

theorem parseUUID_canonicalUUID {c : Text} (h : canonicalUUID id = some c) : parseUUID c = parseUUID id := by
  obtain ⟨u, hu, rfl⟩ := map_eq_some_iff.mp h
  rw [parseUUID_string (length_parseUUID hu), hu]

/-- **Canonical forms identify exactly the spellings of one number**: what is accepted is the spellings, two of
    them have one form exactly when they denote one number of 128 bits, and a form is its own. -/
theorem canonical_form_exact : (∀ id, (∃ c, canonicalUUID id = some c) ↔ ∃ s : Spelling, s.text = id) ∧
      (∀ s : Spelling, s.value < 2 ^ 128) ∧
      (∀ s s' : Spelling, canonicalUUID s.text = canonicalUUID s'.text ↔ s.value = s'.value) ∧
      ∀ id c, canonicalUUID id = some c → canonicalUUID c = some c := by
  refine ⟨fun id => ⟨fun h => ?_, fun h => ?_⟩, fun s => ?_, fun s s' => ?_, fun id c h => ?_⟩
  · obtain ⟨c, hc⟩ := h
    obtain ⟨u, hu, -⟩ := map_eq_some_iff.mp hc
    exact exists_spelling hu
  · obtain ⟨s, rfl⟩ := h
    exact ⟨_, by rw [canonicalUUID, s.parseUUID_text]; rfl⟩
  · have hlt := Nat.ofDigits_lt_base_pow_length (b := 16) (by norm_num) fun n hn =>
      s.digitValue_bound (mem_reverse.mp hn)
    rw [length_reverse, length_map, s.digits_length] at hlt
    exact hlt.trans_eq (by norm_num)
  · have hbytes : ∀ s : Spelling, (bytesOf (s.digits.map digitValue)).length = 16 := fun s =>
      length_parseUUID s.parseUUID_text
    have hlen : (s.digits.map digitValue).length = (s'.digits.map digitValue).length := by
      rw [length_map, length_map, s.digits_length, s'.digits_length]
    rw [canonicalUUID, canonicalUUID, s.parseUUID_text, s'.parseUUID_text, map_some, map_some]
    constructor
    · intro h
      have hparse := congrArg parseUUID (some.inj h)
      rw [parseUUID_string (hbytes s), parseUUID_string (hbytes s')] at hparse
      have heq := bytesOf_inj hlen (by rw [length_map, s.digits_length]) (fun _ => s.digitValue_bound)
        (fun _ => s'.digitValue_bound) (some.inj hparse)
      rw [Spelling.value, Spelling.value, heq]
    · intro h
      have heq := Nat.ofDigits_inj_of_len_eq (by norm_num) (by rw [length_reverse, length_reverse, hlen])
        (fun n hn => s.digitValue_bound (mem_reverse.mp hn))
        (fun n hn => s'.digitValue_bound (mem_reverse.mp hn)) h
      rw [reverse_inj.mp heq]
  · exact (canonicalUUID_eq_iff h).mpr (parseUUID_canonicalUUID h)

end Library

theorem canonical_form_exact_capitals :
    canonicalUUID (replicate 32 65) = some (hyphenated (replicate 16 170)) ∧
      canonicalUUID (hyphenated (replicate 16 170)) = some (hyphenated (replicate 16 170)) := by
  have h : canonicalUUID (replicate 32 65) = some (hyphenated (replicate 16 170)) := by decide +kernel
  exact ⟨h, canonical_form_exact.2.2.2 _ _ h⟩

end MlmForge.Platform

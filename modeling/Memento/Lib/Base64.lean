import Memento.Lib.Text

/-! Base64 with padding. `Codec` is what a user of a base64 library relies on; `standard` is the codec
    itself, three bytes to four digits at a time. -/

namespace Base64
open Text

/-- A padded base64 library: decoding undoes encoding, and every three bytes begun take four digits. -/
structure Codec where
  encode : Bytes → Bytes
  decode : Bytes → Bytes
  decode_encode : ∀ s, decode (encode s) = s
  length_encode : ∀ s, (encode s).length = 4 * ((s.length + 2) / 3)

theorem Codec.encode_ne_nil (codec : Codec) {s : Bytes} (h : s ≠ []) : codec.encode s ≠ [] := by
  have hs : 0 < s.length := List.length_pos_iff.mpr h
  have hlen := codec.length_encode s
  exact List.length_pos_iff.mp (by omega)

/-! ### The standard codec -/

def pad : UInt8 := 61

/-- The digit of a six-bit value: `A-Z`, `a-z`, `0-9`, `+` and `/`. -/
def digit (n : ℕ) : UInt8 :=
  if n < 26 then (65 + n).toUInt8
  else if n < 52 then (71 + n).toUInt8
  else if n < 62 then (n - 4).toUInt8
  else if n = 62 then 43
  else 47

def value (b : UInt8) : ℕ :=
  if 65 ≤ b ∧ b ≤ 90 then b.toNat - 65
  else if 97 ≤ b ∧ b ≤ 122 then b.toNat - 71
  else if 48 ≤ b ∧ b ≤ 57 then b.toNat + 4
  else if b = 43 then 62
  else 63

def encode : Bytes → Bytes
  | [] => []
  | [a] => [digit (a.toNat / 4), digit (a.toNat % 4 * 16), pad, pad]
  | [a, b] => [digit (a.toNat / 4), digit (a.toNat % 4 * 16 + b.toNat / 16), digit (b.toNat % 16 * 4), pad]
  | a :: b :: c :: rest =>
    digit (a.toNat / 4) :: digit (a.toNat % 4 * 16 + b.toNat / 16) :: digit (b.toNat % 16 * 4 + c.toNat / 64) ::
      digit (c.toNat % 64) :: encode rest

def decode : Bytes → Bytes
  | w :: x :: y :: z :: rest =>
    let a := (value w * 4 + value x / 16).toUInt8
    let b := (value x % 16 * 16 + value y / 4).toUInt8
    let c := (value y % 4 * 64 + value z).toUInt8
    if y = pad then [a] else if z = pad then [a, b] else a :: b :: c :: decode rest
  | _ => []

theorem value_digit : ∀ {n : ℕ}, n < 64 → value (digit n) = n := by decide

theorem digit_ne_pad : ∀ {n : ℕ}, n < 64 → digit n ≠ pad := by decide

theorem toUInt8_eq {a : UInt8} {n : ℕ} (h : n = a.toNat) : n.toUInt8 = a := by
  subst h
  exact UInt8.ofNat_toNat

theorem decode_encode (s : Bytes) : decode (encode s) = s := by
  induction s using encode.induct with
  | case1 => rfl
  | case2 a =>
    have ha := a.toNat_lt
    simp only [encode, decode, if_pos, List.cons.injEq, and_true]
    rw [value_digit (by omega), value_digit (by omega)]
    exact toUInt8_eq (by omega)
  | case3 a b =>
    have ha := a.toNat_lt
    have hb := b.toNat_lt
    simp only [encode, decode, if_neg (digit_ne_pad (n := b.toNat % 16 * 4) (by omega)), if_pos, List.cons.injEq,
      and_true]
    rw [value_digit (by omega), value_digit (by omega), value_digit (by omega)]
    exact ⟨toUInt8_eq (by omega), toUInt8_eq (by omega)⟩
  | case4 a b c rest ih =>
    have ha := a.toNat_lt
    have hb := b.toNat_lt
    have hc := c.toNat_lt
    simp only [encode, decode, if_neg (digit_ne_pad (n := b.toNat % 16 * 4 + c.toNat / 64) (by omega)),
      if_neg (digit_ne_pad (n := c.toNat % 64) (by omega)), ih, List.cons.injEq, and_true]
    rw [value_digit (by omega), value_digit (by omega), value_digit (by omega), value_digit (by omega)]
    exact ⟨toUInt8_eq (by omega), toUInt8_eq (by omega), toUInt8_eq (by omega)⟩

theorem length_encode (s : Bytes) : (encode s).length = 4 * ((s.length + 2) / 3) := by
  induction s using encode.induct with
  | case1 => rfl
  | case2 a => simp [encode]
  | case3 a b => simp [encode]
  | case4 a b c rest ih =>
    simp only [encode, List.length_cons, ih]
    omega

def standard : Codec := ⟨encode, decode, decode_encode, length_encode⟩

example : standard.decode (ascii "c2lwOjY1MDU1NTEyMzRAaG9tZWRvbWFpbg==") = ascii "sip:6505551234@homedomain" := by decide

end Base64

import Memento.Lib.Text

/-! JSON objects of strings, as bytes: written without blanks, with any of the escapes that the format allows, and read
    back. -/

namespace Json
open Text

/-! ### Characters -/

/-- The byte of a two-character escape, by its letter. -/
def escapeByte (c : UInt8) : Option UInt8 :=
  if c = 34 ∨ c = 92 ∨ c = 47 then some c
  else if c = 98 then some 8
  else if c = 116 then some 9
  else if c = 110 then some 10
  else if c = 102 then some 12
  else if c = 114 then some 13
  else none

def hexValue (c : UInt8) : Option ℕ :=
  if 48 ≤ c ∧ c ≤ 57 then some (c.toNat - 48)
  else if 65 ≤ c ∧ c ≤ 70 then some (c.toNat - 55)
  else if 97 ≤ c ∧ c ≤ 102 then some (c.toNat - 87)
  else none

/-- The byte of an escape `\u00..`. Those above 127 stand for two bytes and are not read. -/
def unicodeByte (h l : UInt8) : Option UInt8 :=
  (hexValue h).bind fun x => (hexValue l).bind fun y => if x < 8 then some (16 * x + y).toUInt8 else none

def IsPlain (b : UInt8) : Prop := 32 ≤ b ∧ b ≠ 34 ∧ b ≠ 92

instance : DecidablePred IsPlain := fun _ => inferInstanceAs (Decidable (_ ∧ _))

/-- The ways to write a byte in a string. -/
inductive Represents (b : UInt8) : Bytes → Prop
  | plain (h : IsPlain b) : Represents b [b]
  | short {c : UInt8} (h : escapeByte c = some b) : Represents b [92, c]
  | unicode {h l : UInt8} (hu : unicodeByte h l = some b) : Represents b [92, 117, 48, 48, h, l]

def readUnicode : Bytes → Option (UInt8 × Bytes)
  | z :: z' :: h :: l :: s => if z = 48 ∧ z' = 48 then (unicodeByte h l).map fun b => (b, s) else none
  | _ => none

/-- What follows a backslash. -/
def readEscape : Bytes → Option (UInt8 × Bytes)
  | [] => none
  | c :: s => if c = 117 then readUnicode s else (escapeByte c).map fun b => (b, s)

/-- A character, by its first byte and what follows. -/
def readChar (b : UInt8) (s : Bytes) : Option (UInt8 × Bytes) :=
  if b = 92 then readEscape s else if IsPlain b then some (b, s) else none

theorem Represents.ne_nil {b : UInt8} {r : Bytes} (h : Represents b r) : r ≠ [] := by
  cases h <;> exact List.cons_ne_nil _ _

theorem Represents.zero_notMem {b : UInt8} {r : Bytes} (h : Represents b r) : (0 : UInt8) ∉ r := by
  intro h0
  cases h with
  | plain h =>
    obtain rfl := List.mem_singleton.mp h0
    exact absurd h.1 (by decide)
  | @short c h =>
    simp only [List.mem_cons, List.not_mem_nil, or_false] at h0
    rcases h0 with h0 | rfl
    · cases h0
    · cases h
  | @unicode h l hu =>
    simp only [List.mem_cons, List.not_mem_nil, or_false] at h0
    rcases h0 with h0 | h0 | h0 | h0 | rfl | rfl
    · cases h0
    · cases h0
    · cases h0
    · cases h0
    · cases hu
    · have hnone : hexValue 0 = none := by decide
      rw [unicodeByte, hnone] at hu
      cases hx : hexValue h <;> rw [hx] at hu <;> cases hu

theorem Represents.read {b : UInt8} {r : Bytes} (h : Represents b r) :
    ∃ c t, r = c :: t ∧ c ≠ 34 ∧ ∀ s, readChar c (t ++ s) = some (b, s) := by
  cases h with
  | plain h =>
    refine ⟨b, [], rfl, h.2.1, fun s => ?_⟩
    rw [readChar, if_neg h.2.2, if_pos h, List.nil_append]
  | @short c h =>
    refine ⟨92, [c], rfl, by decide, fun s => ?_⟩
    have hc : c ≠ 117 := by
      rintro rfl
      cases h
    rw [readChar, if_pos rfl, List.singleton_append, readEscape, if_neg hc, h, Option.map_some]
  | @unicode h l hu =>
    refine ⟨92, [117, 48, 48, h, l], rfl, by decide, fun s => ?_⟩
    simp only [readChar, if_true, List.cons_append, List.nil_append, readEscape, readUnicode, and_self, hu, Option.map_some]

/-! ### Strings -/

/-- A writer of JSON, known by how it writes each byte of a string. -/
structure Writer where
  escape : UInt8 → Bytes
  represents : ∀ b, Represents b (escape b)

/-- The rest of a string, after its opening quote; `n` bounds its characters. -/
def readChars : ℕ → Bytes → Option (Bytes × Bytes)
  | 0, _ => none
  | _ + 1, [] => none
  | n + 1, b :: s =>
    if b = 34 then some ([], s)
    else (readChar b s).bind fun r => (readChars n r.2).map fun t => (r.1 :: t.1, t.2)

def readString (n : ℕ) : Bytes → Option (Bytes × Bytes)
  | [] => none
  | b :: s => if b = 34 then readChars n s else none

namespace Writer

def string (w : Writer) (text : Bytes) : Bytes := 34 :: (text.flatMap w.escape ++ [34])

theorem readChars_flatMap (w : Writer) {n : ℕ} {text : Bytes} (h : text.length < n) (rest : Bytes) :
    readChars n (text.flatMap w.escape ++ 34 :: rest) = some (text, rest) := by
  induction text generalizing n with
  | nil =>
    obtain ⟨n, rfl⟩ := Nat.exists_eq_succ_of_ne_zero (Nat.ne_of_gt h)
    rfl
  | cons b text ih =>
    obtain ⟨n, rfl⟩ := Nat.exists_eq_succ_of_ne_zero (Nat.ne_of_gt (Nat.zero_lt_of_lt h))
    obtain ⟨c, t, hr, hc, hread⟩ := (w.represents b).read
    rw [List.flatMap_cons, hr, List.append_assoc, List.cons_append, readChars, if_neg hc, hread, Option.bind_some,
      ih (Nat.lt_of_succ_lt_succ h), Option.map_some]

theorem readString_string (w : Writer) {n : ℕ} {text : Bytes} (h : text.length < n) (rest : Bytes) :
    readString n (w.string text ++ rest) = some (text, rest) := by
  rw [string, List.cons_append, List.append_assoc, List.singleton_append, readString, if_pos rfl, w.readChars_flatMap h]

end Writer

/-! ### Objects -/

abbrev Member := Bytes × Bytes

def readMember (n : ℕ) (s : Bytes) : Option (Member × Bytes) :=
  (readString n s).bind fun name =>
    match name.2 with
    | [] => none
    | b :: s => if b = 58 then (readString n s).map fun value => ((name.1, value.1), value.2) else none

/-- The members after an opening brace, of which there are at most `k`. -/
def readMembers (n : ℕ) : ℕ → Bytes → Option (List Member)
  | 0, _ => none
  | k + 1, s =>
    (readMember n s).bind fun m =>
      match m.2 with
      | [] => none
      | b :: rest =>
        if b = 44 then (readMembers n k rest).map (m.1 :: ·)
        else if b = 125 ∧ rest = [] then some [m.1]
        else none

def readObject (s : Bytes) : Option (List Member) :=
  match s with
  | [] => none
  | b :: s => if b = 123 then if s = [125] then some [] else readMembers s.length s.length s else none

namespace Writer

def member (w : Writer) (m : Member) : Bytes := w.string m.1 ++ 58 :: w.string m.2

def members (w : Writer) : List Member → Bytes
  | [] => []
  | [m] => w.member m
  | m :: ms => w.member m ++ 44 :: w.members ms

def object (w : Writer) (ms : List Member) : Bytes := 123 :: (w.members ms ++ [125])

variable (w : Writer)

theorem length_string (text : Bytes) : text.length + 2 ≤ (w.string text).length := by
  have hle : text.length ≤ (text.flatMap w.escape).length := by
    induction text with
    | nil => exact Nat.zero_le _
    | cons b text ih =>
      have hpos := List.length_pos_iff.mpr (w.represents b).ne_nil
      rw [List.length_cons, List.flatMap_cons, List.length_append]
      omega
  simp only [string, List.length_cons, List.length_append, List.length_nil]
  omega

theorem readMember_member {n : ℕ} {m : Member} (hm : (w.member m).length ≤ n) (rest : Bytes) :
    readMember n (w.member m ++ rest) = some (m, rest) := by
  have hname := w.length_string m.1
  have hvalue := w.length_string m.2
  rw [member, List.length_append, List.length_cons] at hm
  rw [member, List.append_assoc, readMember, w.readString_string (by omega), Option.bind_some]
  simp only [List.cons_append, if_true]
  rw [w.readString_string (by omega), Option.map_some]

theorem readMembers_members {n k : ℕ} {ms : List Member} (h : ms ≠ []) (hk : ms.length ≤ k)
    (hn : (w.members ms).length ≤ n) : readMembers n k (w.members ms ++ [125]) = some ms := by
  induction ms generalizing k with
  | nil => exact absurd rfl h
  | cons m ms ih =>
    obtain ⟨k, rfl⟩ := Nat.exists_eq_succ_of_ne_zero (n := k) (by rintro rfl; cases hk)
    cases ms with
    | nil =>
      rw [members] at hn ⊢
      rw [readMembers, w.readMember_member hn, Option.bind_some]
      rfl
    | cons m' ms =>
      rw [members, List.length_append, List.length_cons] at hn
      rw [members, List.append_assoc, List.cons_append, readMembers, w.readMember_member (by omega), Option.bind_some]
      simp only [if_true]
      rw [ih (List.cons_ne_nil _ _) (Nat.le_of_succ_le_succ hk) (by omega), Option.map_some]
      all_goals simp

theorem length_members (ms : List Member) : ms.length ≤ (w.members ms).length := by
  induction ms with
  | nil => exact Nat.zero_le _
  | cons m ms ih =>
    have hm : 1 ≤ (w.member m).length := by
      rw [member, List.length_append, List.length_cons]
      omega
    cases ms with
    | nil => exact hm
    | cons m' ms =>
      rw [members]
      · simp only [List.length_append, List.length_cons] at ih ⊢
        omega
      · simp

/-- What is written is read back. -/
theorem readObject_object (ms : List Member) : readObject (w.object ms) = some ms := by
  cases ms with
  | nil => rfl
  | cons m ms =>
    have hlong : w.members (m :: ms) ++ [125] ≠ [125] := by
      intro heq
      have hlen := congrArg List.length heq
      have := w.length_members (m :: ms)
      rw [List.length_append, List.length_cons] at hlen
      simp only [List.length_cons, List.length_nil] at hlen this
      omega
    have hlen : (w.members (m :: ms) ++ [125]).length = (w.members (m :: ms)).length + 1 := by simp
    rw [object, readObject, if_pos rfl, if_neg hlong]
    refine w.readMembers_members (List.cons_ne_nil _ _) ?_ (by omega)
    have := w.length_members (m :: ms)
    omega

theorem zero_notMem_string (text : Bytes) : (0 : UInt8) ∉ w.string text := by
  intro h
  simp only [string, List.mem_cons, List.mem_append, List.mem_flatMap, List.not_mem_nil, or_false] at h
  rcases h with h | ⟨b, -, h⟩ | h
  · cases h
  · exact (w.represents b).zero_notMem h
  · cases h

theorem zero_notMem_members (ms : List Member) : (0 : UInt8) ∉ w.members ms := by
  have one (m : Member) : (0 : UInt8) ∉ w.member m := by
    intro h
    rcases List.mem_append.mp h with h | h
    · exact w.zero_notMem_string m.1 h
    · rcases List.mem_cons.mp h with h | h
      · cases h
      · exact w.zero_notMem_string m.2 h
  induction ms with
  | nil => exact List.not_mem_nil
  | cons m ms ih =>
    cases ms with
    | nil => exact one m
    | cons m' ms =>
      intro h
      rcases List.mem_append.mp h with h | h
      · exact one m h
      · rcases List.mem_cons.mp h with h | h
        · cases h
        · exact ih h

/-- The text of an object holds no NUL, whatever it says. -/
theorem zero_notMem_object (ms : List Member) : (0 : UInt8) ∉ w.object ms := by
  intro h
  simp only [object, List.mem_cons, List.mem_append, List.not_mem_nil, or_false] at h
  rcases h with h | h | h
  · cases h
  · exact w.zero_notMem_members ms h
  · cases h

def hexLetter (x : UInt8) : UInt8 := if x < 10 then 48 + x else 55 + x

/-- Escapes only what it must, with two characters where there is such an escape. -/
def standardEscape (b : UInt8) : Bytes :=
  if b = 34 ∨ b = 92 then [92, b]
  else if b = 8 then [92, 98]
  else if b = 9 then [92, 116]
  else if b = 10 then [92, 110]
  else if b = 12 then [92, 102]
  else if b = 13 then [92, 114]
  else if b < 32 then [92, 117, 48, 48, hexLetter (b / 16), hexLetter (b % 16)]
  else [b]

theorem unicodeByte_hexLetter {b : UInt8} (h : b < 32) : unicodeByte (hexLetter (b / 16)) (hexLetter (b % 16)) = some b := by
  have all : ∀ n < 32, unicodeByte (hexLetter (n.toUInt8 / 16)) (hexLetter (n.toUInt8 % 16)) = some n.toUInt8 := by decide
  have hb := all b.toNat (UInt8.lt_iff_toNat_lt.mp h)
  rwa [Nat.toUInt8, UInt8.ofNat_toNat] at hb

def standard : Writer where
  escape := standardEscape
  represents b := by
    unfold standardEscape
    split_ifs with hquote h8 h9 h10 h12 h13 h32
    · refine .short ?_
      rcases hquote with rfl | rfl <;> rfl
    · exact .short (h8 ▸ rfl)
    · exact .short (h9 ▸ rfl)
    · exact .short (h10 ▸ rfl)
    · exact .short (h12 ▸ rfl)
    · exact .short (h13 ▸ rfl)
    · exact .unicode (unicodeByte_hexLetter h32)
    · rw [not_or] at hquote
      exact .plain ⟨UInt8.not_lt.mp h32, hquote⟩

end Writer

example : readObject (Writer.standard.object [(ascii "impu", [34, 92, 10, 31, 195])]) =
    some [(ascii "impu", [34, 92, 10, 31, 195])] := by decide

end Json

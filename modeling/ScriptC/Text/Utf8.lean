/-!
Bytes and the characters they spell. `decode` reads bytes one character at a time and marks each
byte that starts no character; `repair` replaces ill-formed stretches, taking the bytes that begin a
character together.
-/

namespace ScriptC.Text

def replacement : Char := '�'

def encode (text : List Char) : List UInt8 :=
  text.flatMap String.utf8EncodeChar

def bytesOf (s : String) : List UInt8 :=
  s.toUTF8.toList

structure Lead where
  tails : Nat
  low : UInt8
  high : UInt8

def Lead.of? (b : UInt8) : Option Lead :=
  if 0xC2 ≤ b && b ≤ 0xDF then some ⟨1, 0x80, 0xBF⟩
  else if b == 0xE0 then some ⟨2, 0xA0, 0xBF⟩
  else if b == 0xED then some ⟨2, 0x80, 0x9F⟩
  else if 0xE1 ≤ b && b ≤ 0xEF then some ⟨2, 0x80, 0xBF⟩
  else if b == 0xF0 then some ⟨3, 0x90, 0xBF⟩
  else if 0xF1 ≤ b && b ≤ 0xF3 then some ⟨3, 0x80, 0xBF⟩
  else if b == 0xF4 then some ⟨3, 0x80, 0x8F⟩
  else none

def leadBits (tails : Nat) (b : UInt8) : Nat :=
  b.toNat % Nat.pow 2 (6 - tails)

def isTail (b : UInt8) : Bool :=
  0x80 ≤ b && b ≤ 0xBF

/--
Take up to `n` continuation bytes, shifting their bits into `acc`. The first component counts those
that are missing.
-/
def takeTails : Nat → Nat → List UInt8 → Nat × Nat × List UInt8
  | 0, acc, bytes => (0, acc, bytes)
  | n + 1, acc, [] => (n + 1, acc, [])
  | n + 1, acc, b :: bytes =>
    if isTail b then takeTails n (acc * 64 + b.toNat % 64) bytes else (n + 1, acc, b :: bytes)

theorem takeTails_length_le (n acc : Nat) (bytes : List UInt8) :
    (takeTails n acc bytes).2.2.length ≤ bytes.length := by
  induction n generalizing acc bytes with
  | zero => simp [takeTails]
  | succ n ih =>
    cases bytes with
    | nil => simp [takeTails]
    | cons b bytes =>
      simp only [takeTails]
      split
      · exact Nat.le_succ_of_le (ih _ _)
      · simp

def readChar (b : UInt8) (bytes : List UInt8) : Option Char × List UInt8 :=
  if b < 0x80 then (some (Char.ofNat b.toNat), bytes)
  else
    match Lead.of? b with
    | none => (none, bytes)
    | some lead =>
      match bytes with
      | [] => (none, [])
      | c :: rest =>
        if lead.low ≤ c && c ≤ lead.high then
          let taken := takeTails (lead.tails - 1) (leadBits lead.tails b * 64 + c.toNat % 64) rest
          (if taken.1 == 0 then some (Char.ofNat taken.2.1) else none, taken.2.2)
        else (none, c :: rest)

theorem readChar_length_le (b : UInt8) (bytes : List UInt8) :
    (readChar b bytes).2.length ≤ bytes.length := by
  unfold readChar
  split
  · simp
  · split
    · simp
    · split
      · simp
      · split
        · rename_i rest _
          exact Nat.le_succ_of_le (takeTails_length_le _ _ rest)
        · simp

def decode : List UInt8 → List (Option Char)
  | [] => []
  | b :: bytes =>
    match h : readChar b bytes with
    | (some c, rest) =>
      have : rest.length ≤ bytes.length := by
        have := readChar_length_le b bytes
        simpa [h] using this
      some c :: decode rest
    | (none, _) => none :: decode bytes
termination_by bytes => bytes.length

def repair : List UInt8 → List Char
  | [] => []
  | b :: bytes =>
    match h : readChar b bytes with
    | (c, rest) =>
      have : rest.length ≤ bytes.length := by
        have := readChar_length_le b bytes
        simpa [h] using this
      c.getD replacement :: repair rest
termination_by bytes => bytes.length

def shown (bytes : List UInt8) : String :=
  String.ofList ((decode bytes).map (·.getD replacement))

def width : Option Char → Nat
  | some c => c.utf8Size
  | none => 1

end ScriptC.Text

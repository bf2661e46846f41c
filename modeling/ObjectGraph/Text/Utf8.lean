/-! # UTF-8

Bytes are decoded by an automaton that holds the character begun but not finished.  A byte that
cannot continue it ends it as one fault and is then looked at afresh; so a fault stands for a
longest prefix of a character, or for one byte that begins none.  `Utf8.decode?` refuses faulty
text, `Utf8.decodeLossy` puts U+FFFD for each fault. -/

namespace ObjectGraph

namespace Text.Utf8

/-- A character begun: its bits so far, the bytes it still wants, and the range of the next. -/
structure Begun where
  bits : Nat
  missing : Nat
  low : Nat := 0x80
  high : Nat := 0xbf

/-- What a byte at the beginning of a character stands for. -/
inductive Start
  | whole (c : Char)
  | begun (state : Begun)
  | fault

/-- The narrowed ranges keep out overlong forms, surrogates and values beyond U+10FFFF. -/
def start (byte : Nat) : Start :=
  if byte < 0x80 then .whole (Char.ofNat byte)
  else if byte < 0xc2 then .fault
  else if byte < 0xe0 then .begun { bits := byte - 0xc0, missing := 1 }
  else if byte = 0xe0 then .begun { bits := 0, missing := 2, low := 0xa0 }
  else if byte = 0xed then .begun { bits := 0xd, missing := 2, high := 0x9f }
  else if byte < 0xf0 then .begun { bits := byte - 0xe0, missing := 2 }
  else if byte = 0xf0 then .begun { bits := 0, missing := 3, low := 0x90 }
  else if byte < 0xf4 then .begun { bits := byte - 0xf0, missing := 3 }
  else if byte = 0xf4 then .begun { bits := 4, missing := 3, high := 0x8f }
  else .fault

/-- The characters that the bytes stand for, `none` for each fault. -/
def scan : Option Begun → List UInt8 → List (Option Char)
  | none, [] => []
  | some _, [] => [none]
  | none, b :: rest =>
    match start b.toNat with
    | .whole c => some c :: scan none rest
    | .begun state => scan (some state) rest
    | .fault => none :: scan none rest
  | some state, b :: rest =>
    if state.low ≤ b.toNat ∧ b.toNat ≤ state.high then
      let bits := state.bits * 64 + (b.toNat - 0x80)
      if state.missing ≤ 1 then some (Char.ofNat bits) :: scan none rest
      else scan (some { bits := bits, missing := state.missing - 1 }) rest
    else
      match start b.toNat with
      | .whole c => none :: some c :: scan none rest
      | .begun state => none :: scan (some state) rest
      | .fault => none :: none :: scan none rest

/-- The text, with U+FFFD for each fault. -/
def decodeLossy (bytes : List UInt8) : String :=
  String.ofList ((scan none bytes).map fun c => c.getD '\ufffd')

/-- The text, if there is no fault. -/
def decode? (bytes : List UInt8) : Option String :=
  ((scan none bytes).mapM id).map String.ofList

/-- The bytes of a text. -/
def encode (text : String) : List UInt8 := text.toList.flatMap String.utf8EncodeChar

end Text.Utf8

end ObjectGraph

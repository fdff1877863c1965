namespace Lading.Text

inductive Lead
  | character (c : Char)
  | sequence (value : Nat) (missing : Nat) (low high : Nat)
  | invalid

/-- The bits of a first byte, the number of bytes to come, and the range of the next one. -/
def lead (byte : UInt8) : Lead :=
  let b := byte.toNat
  if b < 0x80 then .character (Char.ofNat b)
  else if b < 0xc2 then .invalid
  else if b < 0xe0 then .sequence (b % 0x20) 1 0x80 0xbf
  else if b < 0xf0 then
    .sequence (b % 0x10) 2 (if b = 0xe0 then 0xa0 else 0x80) (if b = 0xed then 0x9f else 0xbf)
  else if b < 0xf5 then
    .sequence (b % 0x08) 3 (if b = 0xf0 then 0x90 else 0x80) (if b = 0xf4 then 0x8f else 0xbf)
  else .invalid

structure Partial where
  value : Nat
  missing : Nat
  low : Nat
  high : Nat

def replacement : Char := '\ufffd'

def start (byte : UInt8) : List Char × Option Partial :=
  match lead byte with
  | .character c => ([c], none)
  | .sequence value missing low high => ([], some ⟨value, missing, low, high⟩)
  | .invalid => ([replacement], none)

def resume (p : Partial) (byte : UInt8) : List Char × Option Partial :=
  if p.low ≤ byte.toNat ∧ byte.toNat ≤ p.high then
    let value := p.value * 0x40 + byte.toNat % 0x40
    if p.missing ≤ 1 then ([Char.ofNat value], none)
    else ([], some ⟨value, p.missing - 1, 0x80, 0xbf⟩)
  else
    let (written, rest) := start byte
    (replacement :: written, rest)

/-- Decodes bytes. Each maximal part that starts a character and does not finish it, and each byte
that starts none, becomes U+FFFD. -/
def decodeFrom : Option Partial → List UInt8 → List Char
  | none, [] => []
  | some _, [] => [replacement]
  | pending, byte :: bytes =>
    let (written, rest) := match pending with
      | none => start byte
      | some p => resume p byte
    written ++ decodeFrom rest bytes

def decodeUtf8 (bytes : List UInt8) : String := String.ofList (decodeFrom none bytes)

end Lading.Text

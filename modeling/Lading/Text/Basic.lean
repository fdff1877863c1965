namespace Lading.Text

def byteLength (s : List Char) : Nat := s.foldr (fun c n ↦ c.utf8Size + n) 0

@[simp] theorem byteLength_nil : byteLength [] = 0 := rfl

@[simp] theorem byteLength_cons (c : Char) (s : List Char) :
    byteLength (c :: s) = c.utf8Size + byteLength s := rfl

@[simp] theorem byteLength_append (s t : List Char) :
    byteLength (s ++ t) = byteLength s + byteLength t := by
  induction s with
  | nil => simp
  | cons c s ih => rw [List.cons_append, byteLength_cons, byteLength_cons, ih, Nat.add_assoc]

theorem utf8ByteSize_ofList (s : List Char) : (String.ofList s).utf8ByteSize = byteLength s := by
  induction s with
  | nil => rfl
  | cons c s ih => simp [ih]

def after? : List Char → List Char → Option (List Char)
  | [], s => some s
  | _ :: _, [] => none
  | c :: start, d :: s => if c = d then after? start s else none

theorem after?_eq_some_iff {start s rest : List Char} :
    after? start s = some rest ↔ s = start ++ rest := by
  induction start generalizing s with
  | nil => simp [after?]
  | cons c start ih =>
    cases s with
    | nil => simp [after?]
    | cons d s => by_cases h : c = d <;> simp [after?, h, ih, Ne.symm]

@[simp] theorem after?_append (start rest : List Char) : after? start (start ++ rest) = some rest :=
  after?_eq_some_iff.2 rfl

def cut (mark : Char) (s : List Char) : Option (List Char × List Char) :=
  match s.dropWhile (· != mark) with
  | [] => none
  | _ :: rest => some (s.takeWhile (· != mark), rest)

/-- The parts between the pairs `||`, which are found from left to right. -/
def splitBars : List Char → List (List Char)
  | '|' :: '|' :: s => [] :: splitBars s
  | c :: s =>
    match splitBars s with
    | [] => [[c]]
    | part :: parts => (c :: part) :: parts
  | [] => [[]]

def isGraphic (c : Char) : Bool := '!' ≤ c && c ≤ '~'

def decimal (n : Nat) : List Char := Nat.toDigits 10 n

def integer (n : Int) : List Char :=
  if n < 0 then '-' :: decimal n.natAbs else decimal n.natAbs

def ofDecimal (digits : List Char) : Nat := Nat.ofDigitChars 10 digits 0

@[simp] theorem ofDecimal_decimal (n : Nat) : ofDecimal (decimal n) = n :=
  Nat.ofDigitChars_ten_toDigits

def joinWith (mark : Char) (parts : List (List Char)) : List Char := [mark].intercalate parts

end Lading.Text

namespace Secd.Wire

/-! # Bytes on the wire

A small binary format. A number is written in groups of seven bits, the lowest first, every byte
but the last with its high bit set. A text is the number of its UTF-8 bytes and the bytes, a list is
the number of its elements and the elements, an optional value is a byte that tells whether it is
there and the value, and one of several alternatives is the number of the alternative and its data.

Writing gives a list of bytes; reading takes what it needs from the front of a list and leaves the
rest. For each `putX` there is a `getX` that reads it back.
-/

abbrev Bytes := List UInt8

inductive DecodeError where
  /-- The bytes end inside a value. -/
  | unexpectedEnd
  /-- A number has more bits than its type. -/
  | badVarint
  /-- The bytes of a text are not UTF-8. -/
  | badText
  /-- The first byte of an optional value is neither zero nor one. -/
  | badOption
  /-- There is no alternative of this number. -/
  | badVariant
  deriving DecidableEq, Repr

abbrev Reader := StateT Bytes (Except DecodeError)

/-! ## Numbers -/

def putNat (n : Nat) : Bytes :=
  if n < 128 then [n.toUInt8] else (n % 128 + 128).toUInt8 :: putNat (n / 128)

def getByte : Reader UInt8
  | [] => .error .unexpectedEnd
  | byte :: rest => .ok (byte, rest)

/-- Reads a number of at most `groups + 1` bytes, the last of which is at most `top`. -/
def getGroups (top : Nat) : (groups : Nat) → Reader Nat
  | 0 => do
    let byte ← getByte
    if byte.toNat ≤ top then return byte.toNat else throw .badVarint
  | groups + 1 => do
    let byte ← getByte
    if byte.toNat < 128 then return byte.toNat
    else return byte.toNat - 128 + 128 * (← getGroups top groups)

/-- Reads a number below `2 ^ 64`: nine groups and one more bit. -/
def getNat : Reader Nat := getGroups 1 9

/-- Reads the number of an alternative, which is below `2 ^ 32`: four groups and four more bits. -/
def getVariant : Reader Nat := getGroups 15 4

/-! ## Signed numbers -/

/-- Interleaves the signed numbers, so that those near zero have short codes: `0, -1, 1, -2, …`
become `0, 1, 2, 3, …`. -/
def zigzag : Int → Nat
  | .ofNat n => 2 * n
  | .negSucc n => 2 * n + 1

def unzigzag (n : Nat) : Int :=
  if n % 2 = 0 then .ofNat (n / 2) else .negSucc (n / 2)

theorem unzigzag_zigzag (value : Int) : unzigzag (zigzag value) = value := by
  cases value with
  | ofNat n => simp [zigzag, unzigzag]
  | negSucc n =>
    have odd : (2 * n + 1) % 2 ≠ 0 := by omega
    have half : (2 * n + 1) / 2 = n := by omega
    simp [zigzag, unzigzag, half]

def putInt64 (value : Int64) : Bytes := putNat (zigzag value.toInt)

def getInt64 : Reader Int64 := do return Int64.ofInt (unzigzag (← getNat))

/-! ## Texts, lists and optional values -/

def putText (text : String) : Bytes :=
  let bytes := text.toByteArray.data.toList
  putNat bytes.length ++ bytes

/-- Takes a number of bytes. -/
def getBytes (count : Nat) : Reader Bytes := fun bytes =>
  let taken := bytes.take count
  if taken.length = count then .ok (taken, bytes.drop count) else .error .unexpectedEnd

def getText : Reader String := do
  let bytes ← getBytes (← getNat)
  match String.fromUTF8? bytes.toByteArray with
  | some text => return text
  | none => throw .badText

def putList {α : Type} (put : α → Bytes) (values : List α) : Bytes :=
  putNat values.length ++ values.flatMap put

/-- Reads a number of values one after the other. -/
def getMany {α : Type} (get : Reader α) : (count : Nat) → Reader (List α)
  | 0 => return []
  | count + 1 => do
    let value ← get
    let rest ← getMany get count
    return value :: rest

def getList {α : Type} (get : Reader α) : Reader (List α) := do
  getMany get (← getNat)

def putOption {α : Type} (put : α → Bytes) : Option α → Bytes
  | none => [0]
  | some value => 1 :: put value

def getOption {α : Type} (get : Reader α) : Reader (Option α) := do
  match (← getByte).toNat with
  | 0 => return none
  | 1 => return some (← get)
  | _ => throw .badOption

/-- Reads a whole value; bytes after it do not matter. -/
def decode {α : Type} (get : Reader α) (bytes : Bytes) : Except DecodeError α :=
  (get bytes).map Prod.fst

end Secd.Wire

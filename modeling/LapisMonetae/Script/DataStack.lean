import LapisMonetae.Lib.Program
import LapisMonetae.Script.Opcode

/-!
# The data stack

The stack of byte strings that scripts work on, its items read as numbers and booleans, and the
operations on it. A stack is a list with the top first. Integers are checked for overflow where
the source relies on it: a result out of range is a panic.
-/

namespace LapisMonetae.Script

open Program

/-- `Stack`, with the top first. -/
abbrev Stack := List (List UInt8)

/-- Programs on a stack. -/
abbrev StackM := Program Stack TxScriptError

/-! ## Items -/

section
variable {σ : Type}

/-- `check_minimal_data_encoding`: a number is encoded with the minimum possible number of bytes. -/
def checkMinimalDataEncoding (v : List UInt8) : Program σ TxScriptError Unit :=
  match v.reverse with
  | [] => pure ()
  | last :: rest =>
    if last &&& 0x7f = 0 ∧ (rest = [] ∨ rest.headD 0 &&& 0x80 = 0) then
      throw (.notMinimalData ("numeric value encoded as " ++ debugBytes hexDigits v
        ++ " is not minimally encoded"))
    else pure ()

/-- One round of the fold of `deserialize_i64`. A shift that loses bits counts as an overflow. -/
def accumulateByte (accum : ℤ) (item : UInt8) : Program σ TxScriptError ℤ :=
  unwrap (checkedI64 (accum * 256 + item.toNat))

def deserializeI64 (v : List UInt8) : Program σ TxScriptError ℤ :=
  if v.length > 8 then
    throw (.notMinimalData ("numeric value encoded as " ++ debugBytes hexDigits v
      ++ " is longer than 8 bytes"))
  else
    match v.reverse with
    | [] => pure 0
    | msb :: rest => do
      checkMinimalDataEncoding v
      let sign : ℤ := 1 - 2 * (msb >>> 7).toNat
      let firstByte : ℤ := (msb &&& 0x7f).toNat
      let magnitude ← rest.foldlM accumulateByte firstByte
      unwrap (checkedI64 (magnitude * sign))

/-- `deserialize` of a `SizedEncodeInt`. The numbers of the time before KIP-10 have four bytes. -/
def deserializeSized (len : ℕ) (v : List UInt8) : Program σ TxScriptError ℤ :=
  if v.length > len then
    throw (.numberTooBig ("numeric value encoded as " ++ debugBytes hexDigits v ++ " is "
      ++ toString v.length ++ " bytes which exceeds the max allowed of " ++ toString len))
  else deserializeI64 v

/-- `deserialize` of an `i32`. -/
def deserializeI32 (v : List UInt8) : Program σ TxScriptError ℤ := do
  unwrap (checkedI32 (← deserializeSized 4 v))

/-- The boolean value of an item: negative 0 is also considered false. -/
def toBool (v : List UInt8) : Bool :=
  match v.reverse with
  | [] => false
  | last :: rest => last &&& 0x7f != 0 || rest.any (· != 0)

/-- `deserialize` of a `bool`. -/
def deserializeBool (v : List UInt8) : Program σ TxScriptError Bool := pure (toBool v)

/-- The bytes of a magnitude, lowest first, with an empty byte for the sign if the last one has
its high bit set. `fuel` bounds the number of bytes. -/
def magnitudeBytes : ℕ → ℕ → Bool → List UInt8
  | 0, _, _ => []
  | fuel + 1, positive, lastSaturated =>
    if positive = 0 then
      if lastSaturated then 0 :: magnitudeBytes fuel 0 false else []
    else
      let value := positive % 256
      UInt8.ofNat value :: magnitudeBytes fuel (positive / 256) (128 ≤ value)

/-- `serialize_i64`. The nine bytes of the fuel are enough for a magnitude of 64 bits. A negative
number has a byte that takes the sign. -/
def serializeI64 (n : ℤ) : Program σ TxScriptError (List UInt8) :=
  let bytes := magnitudeBytes 9 n.natAbs false
  if n < 0 then
    match bytes.reverse with
    | [] => unwrap none
    | last :: rest => pure ((last ||| 0x80) :: rest).reverse
  else pure bytes

/-- `serialize` of a `SizedEncodeInt`. -/
def serializeSized (len : ℕ) (n : ℤ) : Program σ TxScriptError (List UInt8) := do
  let bytes ← serializeI64 n
  if bytes.length > len then throw (.serialization (.numberTooLong n)) else pure bytes

/-- `serialize` of a `bool`. -/
def serializeBool (b : Bool) : List UInt8 := if b then [1] else []

end

/-! ## Reading -/

/-- `pop_raw`: the `size` upper items, the lowest first. -/
def popRaw (size : ℕ) : StackM (List (List UInt8)) := do
  let stack ← get
  if stack.length < size then throw (.invalidStackOperation size stack.length)
  else do
    set (stack.drop size)
    pure (stack.take size).reverse

/-- `pop_items`: the items are off the stack even when one of them cannot be read. -/
def popItems {α : Type} (deserialize : List UInt8 → StackM α) (size : ℕ) : StackM (List α) := do
  (← popRaw size).mapM deserialize

def peekRaw (size : ℕ) : StackM (List (List UInt8)) := do
  let stack ← get
  if stack.length < size then throw (.invalidStackOperation size stack.length)
  else pure (stack.take size).reverse

/-- The item of a list of one item. -/
def exactly1 {α : Type} : List α → StackM α
  | [a] => pure a
  | _ => unwrap none

/-- The items of a list of two items. -/
def exactly2 {α : Type} : List α → StackM (α × α)
  | [a, b] => pure (a, b)
  | _ => unwrap none

/-- The items of a list of three items. -/
def exactly3 {α : Type} : List α → StackM (α × α × α)
  | [a, b, c] => pure (a, b, c)
  | _ => unwrap none

/-- `let [a] = pop_raw()`. -/
def popRaw1 : StackM (List UInt8) := do exactly1 (← popRaw 1)

/-- `let [a, b] = pop_raw()`. -/
def popRaw2 : StackM (List UInt8 × List UInt8) := do exactly2 (← popRaw 2)

section
variable {α : Type} (deserialize : List UInt8 → StackM α)

/-- `let [a] = pop_items()`. -/
def popItems1 : StackM α := do exactly1 (← popItems deserialize 1)

/-- `let [a, b] = pop_items()`. -/
def popItems2 : StackM (α × α) := do exactly2 (← popItems deserialize 2)

/-- `let [a, b, c] = pop_items()`. -/
def popItems3 : StackM (α × α × α) := do exactly3 (← popItems deserialize 3)

end

/-- `let [a]: [i32; 1] = pop_items()`. -/
def popI32 : StackM ℤ := popItems1 deserializeI32

/-- `let [a]: [bool; 1] = pop_items()`. -/
def popBool : StackM Bool := popItems1 deserializeBool

/-- `let [a] = peek_raw()`. -/
def peekRaw1 : StackM (List UInt8) := do exactly1 (← peekRaw 1)

/-! ## Writing -/

def push (item : List UInt8) : StackM Unit := modify (item :: ·)

/-- `push_item` of an `i64`. -/
def pushNumber (n : ℤ) : StackM Unit := do push (← serializeSized 8 n)

/-- `push_item` of a `bool`. -/
def pushBool (b : Bool) : StackM Unit := push (serializeBool b)

/-- An operation that needs `required` items and only moves items of the stack. -/
def rearrange (required : ℕ) (f : Stack → Stack) : StackM Unit := do
  let stack ← get
  if required ≤ stack.length then set (f stack)
  else throw (.invalidStackOperation required stack.length)

def dropItems (size : ℕ) : StackM Unit := rearrange size (·.drop size)

def dupItems (size : ℕ) : StackM Unit := rearrange size fun stack => stack.take size ++ stack

def overItems (size : ℕ) : StackM Unit :=
  rearrange (2 * size) fun stack => (stack.drop size).take size ++ stack

def rotItems (size : ℕ) : StackM Unit :=
  rearrange (3 * size) fun stack =>
    (stack.drop (2 * size)).take size ++ stack.take (2 * size) ++ stack.drop (3 * size)

def swapItems (size : ℕ) : StackM Unit :=
  rearrange (2 * size) fun stack =>
    (stack.drop size).take size ++ stack.take size ++ stack.drop (2 * size)

/-- `OpNip`: the item below the top is removed. -/
def nip : StackM Unit := rearrange 2 (·.eraseIdx 1)

/-- `OpTuck`: the top is copied below the item that follows it. -/
def tuck : StackM Unit := rearrange 2 fun stack => stack.take 2 ++ stack.take 1 ++ stack.drop 2

/-- Whether the upper two items are equal; they are removed. -/
def popEqual : StackM Bool := do
  let stack ← get
  match stack with
  | b :: a :: stack => do
    set stack
    pure (a == b)
  | _ => throw (.invalidStackOperation 2 stack.length)

end LapisMonetae.Script

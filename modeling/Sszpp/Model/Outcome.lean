import Sszpp.Library.LittleEndian

/-!
# Outcomes of the modelled functions

A function of the library returns, throws an exception, or reaches an operation the language
leaves undefined: an access outside its range, a division by zero, a `bool` object that is
neither 0 nor 1. The model stops at the first of the last two.
-/

namespace Sszpp

open Library

/-- Exceptions thrown by the library, with their texts. -/
inductive Exception
  | invalidArgument (what : String)
  | outOfRange (what : String)
  deriving DecidableEq

/-- Operations without defined behaviour. `nested u` is `u` inside the decoder of a member or
of an element; the other constructors are operations of the function itself. -/
inductive Undefined
  | offsetRead
  | subrange
  | back
  | read
  | elementWrite
  | division
  | boolValue
  | noOverload
  | write
  | shift
  | nested (u : Undefined)
  deriving DecidableEq

/-- Why a function did not return. -/
inductive Stop
  | thrown (e : Exception)
  | undefined (u : Undefined)
  deriving DecidableEq

abbrev Outcome := Except Stop

namespace Outcome

variable {α β : Type}

@[simp] lemma ok_bind (a : α) (f : α → Outcome β) : (Except.ok a >>= f) = f a := rfl

@[simp] lemma error_bind (s : Stop) (f : α → Outcome β) :
    ((Except.error s : Outcome α) >>= f) = .error s := rfl

lemma bind_eq_ok {x : Outcome α} {f : α → Outcome β} {b : β} :
    (x >>= f) = .ok b ↔ ∃ a, x = .ok a ∧ f a = .ok b := by
  cases x with
  | error s => simp
  | ok a => simp

lemma bind_ne_thrown {x : Outcome α} {f : α → Outcome β} {e : Exception} (hx : x ≠ .error (.thrown e))
    (hf : ∀ a, f a ≠ .error (.thrown e)) : (x >>= f) ≠ .error (.thrown e) := by
  cases x with
  | error stop =>
    rintro ⟨⟩
    exact hx rfl
  | ok a => exact hf a

/-- The outcome of a decoder called on a member or an element. -/
def nested : Outcome α → Outcome α
  | .error (.undefined u) => .error (.undefined (.nested u))
  | x => x

@[simp] lemma nested_ok (a : α) : nested (.ok a : Outcome α) = .ok a := rfl

@[simp] lemma nested_eq_ok {x : Outcome α} {a : α} : nested x = .ok a ↔ x = .ok a := by
  rcases x with (e | u) | b <;> simp [nested]

end Outcome

/-! ### Byte buffers -/

/-- A new buffer. -/
def zeros (n : Nat) : Bytes := List.replicate n 0

@[simp] lemma length_zeros (n : Nat) : (zeros n).length = n := List.length_replicate

@[simp] lemma zeros_zero : zeros 0 = [] := rfl

lemma zeros_add (m n : Nat) : zeros (m + n) = zeros m ++ zeros n := List.replicate_add m n 0

/-- Copies `bs` to position `pos` of a buffer. -/
def store (pos : Nat) (bs buf : Bytes) : Outcome Bytes :=
  if pos + bs.length ≤ buf.length then
    .ok (buf.take pos ++ bs ++ buf.drop (pos + bs.length))
  else .error (.undefined .write)

/-- Combines the byte at position `pos` of a buffer with `x` by bitwise or. -/
def orByte (pos : Nat) (x : Byte) (buf : Bytes) : Outcome Bytes :=
  match buf[pos]? with
  | some b => .ok (buf.set pos (b ||| x))
  | none => .error (.undefined .write)

lemma store_append {pre mid post bs : Bytes} {pos : Nat} (hpos : pos = pre.length)
    (hlen : bs.length = mid.length) :
    store pos bs (pre ++ mid ++ post) = .ok (pre ++ bs ++ post) := by
  subst hpos
  have hle : pre.length + bs.length ≤ (pre ++ mid ++ post).length := by
    simp only [List.length_append]
    omega
  have hdrop : (pre ++ mid ++ post).drop (pre.length + bs.length) = post := by
    rw [hlen, ← List.length_append, List.drop_left]
  rw [store, if_pos hle, hdrop, List.append_assoc pre mid, List.take_left]

/-- A 4-byte little-endian word at the beginning of `bytes`. -/
def readOffset (bytes : Bytes) : Outcome Nat :=
  if 4 ≤ bytes.length then .ok (leNat (bytes.take 4)) else .error (.undefined .offsetRead)

lemma readOffset_append {n : Nat} (hn : n < 2 ^ 32) (bs : Bytes) :
    readOffset (leBytes 4 n ++ bs) = .ok n := by
  have hlen : 4 ≤ (leBytes 4 n ++ bs).length := by simp
  rw [readOffset, if_pos hlen, List.take_left' (length_leBytes 4 n),
    leNat_leBytes_of_lt (by simpa using hn)]

lemma readOffset_eq_ok {bytes : Bytes} {n : Nat} :
    readOffset bytes = .ok n ↔ 4 ≤ bytes.length ∧ leNat (bytes.take 4) = n := by
  unfold readOffset
  split <;> simp_all

/-- The bytes from position `first` up to position `last`. -/
def subrange (bytes : Bytes) (first last : Nat) : Outcome Bytes :=
  if first ≤ last ∧ last ≤ bytes.length then .ok ((bytes.take last).drop first)
  else .error (.undefined .subrange)

end Sszpp

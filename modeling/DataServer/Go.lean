import Mathlib.Order.Lattice
import Mathlib.Algebra.Group.Int
import Mathlib.Algebra.Group.Nat.Basic
import Mathlib.Data.Int.Order.Basic

/-! The parts of the Go runtime the data server relies on: the fixed-width `int32` of
priorities, and the two ways a call can end abnormally, a returned `error` value or a
runtime panic (a nil dereference, an index out of range). -/
namespace DataServer

/-- Go's `int32`: an integer that stays inside the 32-bit signed range. -/
structure Int32 where
  val : Int
  ge_min : -2147483648 ≤ val
  le_max : val ≤ 2147483647
deriving DecidableEq

namespace Int32

/-- The conversion `int32(x)`: the value is taken modulo `2^32` into the signed range. -/
def ofInt (i : Int) : Int32 :=
  ⟨(i + 2147483648) % 4294967296 - 2147483648, by omega, by omega⟩

theorem ext_val {a b : Int32} (h : a.val = b.val) : a = b := by
  cases a; cases b; cases h; rfl

instance : Repr Int32 := ⟨fun i _ => repr i.val⟩
instance (n : Nat) : OfNat Int32 n := ⟨ofInt n⟩
instance : Neg Int32 := ⟨fun i => ofInt (-i.val)⟩
/-- Priorities are compared as the integers they hold. -/
instance : LinearOrder Int32 := LinearOrder.lift' Int32.val fun _ _ => ext_val

/-- `math.MaxInt32`, used by the tree as "no priority found". -/
def maxInt32 : Int32 := ⟨2147483647, by decide, by decide⟩

@[simp] theorem lt_iff {a b : Int32} : a < b ↔ a.val < b.val := Iff.rfl
@[simp] theorem le_iff {a b : Int32} : a ≤ b ↔ a.val ≤ b.val := Iff.rfl
@[simp] theorem maxInt32_val : maxInt32.val = 2147483647 := rfl

theorem le_maxInt32 (a : Int32) : a ≤ maxInt32 := a.le_max

theorem ofInt_val {i : Int} (h1 : -2147483648 ≤ i) (h2 : i ≤ 2147483647) : (ofInt i).val = i := by
  simp only [ofInt]; omega

@[simp] theorem ofInt_self (a : Int32) : ofInt a.val = a :=
  ext_val (ofInt_val a.ge_min a.le_max)

end Int32

/-- How a Go call ends when it does not return a value: it returns an `error`, or the runtime panics
(nil pointer dereference, index out of range). -/
inductive Fault where
  | error (msg : String)
  | panic (msg : String)
deriving DecidableEq, Repr

instance instDecidableEqExcept {ε α : Type} [DecidableEq ε] [DecidableEq α] : DecidableEq (Except ε α)
  | .ok a, .ok b => if h : a = b then isTrue (h ▸ rfl) else isFalse fun e => h (by cases e; rfl)
  | .error a, .error b => if h : a = b then isTrue (h ▸ rfl) else isFalse fun e => h (by cases e; rfl)
  | .ok _, .error _ => isFalse nofun
  | .error _, .ok _ => isFalse nofun

namespace Fault

/-- The panic of a method call or field access through a nil pointer or a nil interface. -/
def nilDereference : Fault := .panic "runtime error: invalid memory address or nil pointer dereference"

/-- The panic of `s[i]` on a slice of length `n` with `i ≥ n`. -/
def indexOutOfRange (i n : Nat) : Fault :=
  .panic ("runtime error: index out of range [" ++ toString i ++ "] with length " ++ toString n)

end Fault

namespace Go

/-- `fmt`'s `%s` and `%v` of a `[]string`: the elements between brackets, separated by blanks. -/
def stringSlice (p : List String) : String := "[" ++ " ".intercalate p ++ "]"

/-- `%q` of a string (`strconv.Quote`) on printable text: the text between double quotes, with a
backslash before each double quote and each backslash. -/
def quote (s : String) : String :=
  let q := Char.ofNat 34
  let bs := Char.ofNat 92
  String.mk (q :: (s.toList.flatMap fun c => if c = q ∨ c = bs then [bs, c] else [c]) ++ [q])

/-- The errors `strconv`'s integer parsing wraps in its `*NumError`: `ErrSyntax` and `ErrRange`. -/
inductive NumError where
  | invalid
  | outOfRange
deriving DecidableEq, Repr

/-- `(*NumError).Error()` of the function `fn` called on `num`. -/
def NumError.message (fn num : String) : NumError → String
  | .invalid => "strconv." ++ fn ++ ": parsing " ++ quote num ++ ": invalid syntax"
  | .outOfRange => "strconv." ++ fn ++ ": parsing " ++ quote num ++ ": value out of range"

/-- The optional sign in front of the digits `strconv` reads. -/
def splitSign : List Char → Bool × List Char
  | c :: ds => if c = '-' then (true, ds) else if c = '+' then (false, ds) else (false, c :: ds)
  | [] => (false, [])

/-- The value of a string of digits, read left to right as `strconv`'s loop reads it. -/
def digitsValue (ds : List Char) : Nat := ds.foldl (fun n c => 10 * n + (c.toNat - 48)) 0

/-- `math.MaxUint64`. -/
def maxUint64 : Nat := 2 ^ 64 - 1

/-- The loop of `strconv.ParseUint(s, 10, 64)` over the characters left, from the value `n` (the
code of `0` is 48): a decimal digit is added while the value stays in `uint64`; any other
character is `ErrSyntax`, and the first overflow `ErrRange`, whatever follows it. -/
def parseUintLoop : Nat → List Char → Except NumError Nat
  | n, [] => .ok n
  | n, c :: cs =>
    if c.isDigit then
      if n ≥ maxUint64 / 10 + 1 then .error .outOfRange
      else
        let n1 := 10 * n + (c.toNat - 48)
        if n1 > maxUint64 then .error .outOfRange else parseUintLoop n1 cs
    else .error .invalid

/-- `strconv.ParseUint(s, 10, 64)`. -/
def parseUint (s : List Char) : Except NumError Nat :=
  if s = [] then .error .invalid else parseUintLoop 0 s

/-- The end of `ParseInt`: the unsigned value `un` with its sign, checked against `int64`. -/
def int64OfSigned (neg : Bool) (un : Nat) : Except NumError Int :=
  let cutoff : Nat := 2 ^ 63
  if !neg && un ≥ cutoff then .error .outOfRange
  else if neg && un > cutoff then .error .outOfRange
  else .ok (if neg then -(un : Int) else un)

/-- `strconv.ParseInt(s, 10, 64)`: an optional sign, then the digits as `ParseUint` reads them; a
value out of `uint64` goes on as `math.MaxUint64`, out of `int64` too. -/
def parseInt (s : List Char) : Except NumError Int :=
  if s = [] then .error .invalid else
  match splitSign s with
  | (neg, digits) =>
    match parseUint digits with
    | .error .invalid => .error .invalid
    | .error .outOfRange => int64OfSigned neg maxUint64
    | .ok un => int64OfSigned neg un

theorem int64OfSigned_range {neg : Bool} {un : Nat} {i : Int} (h : int64OfSigned neg un = .ok i) :
    -2 ^ 63 ≤ i ∧ i < 2 ^ 63 := by
  unfold int64OfSigned at h
  cases neg <;> simp only [Bool.not_false, Bool.not_true, Bool.true_and, Bool.false_and, decide_eq_true_eq,
    Bool.false_eq_true, if_false, if_true] at h <;> split_ifs at h with h1 <;> cases h <;> omega

theorem int64OfSigned_natAbs {i : Int} (h1 : -2 ^ 63 ≤ i) (h2 : i < 2 ^ 63) :
    int64OfSigned (decide (i < 0)) i.natAbs = .ok i := by
  unfold int64OfSigned
  by_cases h : i < 0
  · have hn : (i.natAbs : Int) = -i := Int.ofNat_natAbs_of_nonpos (by omega)
    simp only [h, decide_True, Bool.not_true, Bool.false_and, Bool.true_and, decide_eq_true_eq,
      Bool.false_eq_true, if_false]
    rw [if_neg (by omega)]
    simp [hn]
  · have hn : (i.natAbs : Int) = i := Int.natAbs_of_nonneg (by omega)
    simp only [h, decide_False, Bool.not_false, Bool.true_and, decide_eq_true_eq, Bool.false_eq_true, if_false]
    rw [if_neg (by omega)]
    simp [hn]

theorem parseInt_range {s : List Char} {i : Int} (h : parseInt s = .ok i) : -2 ^ 63 ≤ i ∧ i < 2 ^ 63 := by
  unfold parseInt at h
  split at h
  · cases h
  · split at h
    rename_i neg digits _
    split at h
    · cases h
    · exact int64OfSigned_range h
    · exact int64OfSigned_range h

theorem le_foldl_digit (n : Nat) : ∀ ds : List Char, n ≤ ds.foldl (fun n c => 10 * n + (c.toNat - 48)) n
  | [] => Nat.le_refl n
  | c :: ds => by
    simp only [List.foldl_cons]
    exact Nat.le_trans (by omega) (le_foldl_digit _ ds)

theorem parseUintLoop_of_digits : ∀ (ds : List Char) (n : Nat), ds.all Char.isDigit →
    ds.foldl (fun n c => 10 * n + (c.toNat - 48)) n ≤ maxUint64 →
      parseUintLoop n ds = .ok (ds.foldl (fun n c => 10 * n + (c.toNat - 48)) n)
  | [], _, _, _ => rfl
  | c :: ds, n, hd, hv => by
    simp only [List.all_cons, Bool.and_eq_true] at hd
    simp only [List.foldl_cons] at hv ⊢
    have hle := Nat.le_trans (le_foldl_digit (10 * n + (c.toNat - 48)) ds) hv
    have hmax : maxUint64 = 2 ^ 64 - 1 := rfl
    rw [parseUintLoop, if_pos hd.1, if_neg (by omega), if_neg (by omega)]
    exact parseUintLoop_of_digits ds _ hd.2 hv

end Go

end DataServer

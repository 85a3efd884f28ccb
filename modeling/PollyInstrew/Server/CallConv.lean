import Mathlib.Data.Nat.Digits.Lemmas
import PollyInstrew.Support.ByteMemory

/-!
# Calling conventions and function names

The calling conventions of translated code, and the names the server gives to
functions: the function of the requested address, functions that calls refer to
by a constant guest address, and the functions a tool defines.
-/

namespace PollyInstrew.Server

open PollyInstrew.ByteMemory

/-- `enum class CallConv`. -/
inductive CallConv where
  | cdecl
  | hhvm
  | rv64X86Hhvm
  | aarch64X86Hhvm
  | x86Aarch64X
  | aarch64Aarch64X
  deriving DecidableEq, Repr

/-- Guest registers; general-purpose registers by their number, and the stack pointer of
AArch64, which has none. -/
inductive GuestReg where
  | pc
  | gpr (n : ℕ)
  | sp
  deriving DecidableEq, Repr

/-- The field tables of `ChangeCallConv`: the registers that are passed, with `argidx`. -/
def CallConv.fieldArgs : CallConv → List (GuestReg × ℕ)
  | .cdecl => []
  | .x86Aarch64X =>
      [(.pc, 0), (.gpr 0, 1), (.gpr 1, 2), (.gpr 2, 3), (.gpr 3, 4), (.gpr 4, 5), (.gpr 6, 6),
        (.gpr 7, 7)]
  | .aarch64Aarch64X =>
      [(.pc, 0), (.gpr 0, 1), (.gpr 1, 2), (.gpr 2, 3), (.gpr 3, 4), (.gpr 4, 5), (.gpr 30, 6),
        (.gpr 6, 7)]
  | .hhvm =>
      [(.pc, 0), (.gpr 0, 10), (.gpr 1, 7), (.gpr 2, 6), (.gpr 3, 2), (.gpr 4, 3), (.gpr 5, 13),
        (.gpr 6, 5), (.gpr 7, 4), (.gpr 8, 8), (.gpr 9, 9), (.gpr 10, 11), (.gpr 11, 12)]
  | .rv64X86Hhvm =>
      [(.pc, 0), (.gpr 18, 10), (.gpr 1, 7), (.gpr 2, 6), (.gpr 8, 2), (.gpr 9, 3), (.gpr 10, 13),
        (.gpr 11, 5), (.gpr 12, 4), (.gpr 13, 8), (.gpr 14, 9), (.gpr 15, 11), (.gpr 17, 12)]
  | .aarch64X86Hhvm =>
      [(.pc, 0), (.gpr 0, 10), (.gpr 1, 7), (.gpr 2, 6), (.gpr 3, 3), (.gpr 4, 13), (.gpr 5, 5),
        (.gpr 6, 4), (.gpr 7, 8), (.gpr 8, 9), (.gpr 30, 11), (.gpr 9, 12)]

/-- The stack pointer of the guest: `RSP`, `X2` or `SP`. -/
def CallConv.stackPointer : CallConv → GuestReg
  | .cdecl => .gpr 4
  | .hhvm => .gpr 4
  | .x86Aarch64X => .gpr 4
  | .rv64X86Hhvm => .gpr 2
  | .aarch64X86Hhvm => .sp
  | .aarch64Aarch64X => .sp

/-- The argument that carries the guest stack pointer, if there is one. -/
def CallConv.spArg (cc : CallConv) : Option ℕ :=
  (cc.fieldArgs.find? fun e => e.1 = cc.stackPointer).map Prod.snd

/-- The characters of a string literal. -/
def chars (s : String) : List Byte := s.toList.map fun ch => BitVec.ofNat 8 ch.toNat

/-- `namebuf << std::oct << v`. -/
def oct (v : BitVec 64) : List Byte :=
  if v = 0 then [0x30#8]
  else (Nat.digits 8 v.toNat).reverse.map fun d => BitVec.ofNat 8 (0x30 + d)

/-- What `ChangeCallConv` appends to the name of a function. -/
def CallConv.suffix : CallConv → List Byte
  | .cdecl => []
  | .hhvm => chars "_hhvm"
  | .rv64X86Hhvm => chars "_hhvm"
  | .aarch64X86Hhvm => chars "_hhvm"
  | .x86Aarch64X => chars "_aapcsx"
  | .aarch64Aarch64X => chars "_aapcsx"

/-- The name of the function `Lift` returns, after `ChangeCallConv`. -/
def liftName (cc : CallConv) : List Byte := chars "S0" ++ cc.suffix

/-- The name of the tool-defined function `n`, which was called `fn`. -/
def toolName (n : ℕ) (fn : List Byte) : List Byte :=
  chars "Z" ++ oct (BitVec.ofNat 64 (2 ^ 63 + n)) ++ chars "_" ++ fn

/-- The values `FuncConstName` tells apart. -/
inductive PcValue where
  | constantInt (v : BitVec 64)
  | globalVariable (name : List Byte)
  | ptrToInt (op : PcValue)
  | add (lhs rhs : PcValue)
  | constantExpr
  | instruction
  deriving DecidableEq, Repr

/-- The address a constant stands for, given the addresses of the globals. -/
def PcValue.eval (glob : List Byte → BitVec 64) : PcValue → Option (BitVec 64)
  | .constantInt v => some v
  | .globalVariable name => some (glob name)
  | .ptrToInt op => op.eval glob
  | .add lhs rhs => do
      let l ← lhs.eval glob
      let r ← rhs.eval glob
      return l + r
  | .constantExpr => none
  | .instruction => none

/-- `FuncConstName`. -/
def funcConstName : PcValue → Option (List Byte)
  | .constantInt v => some (chars "Z" ++ oct v)
  | .add (.ptrToInt (.globalVariable name)) (.constantInt v) =>
      if name = chars "instrew_baseaddr" then some (chars "S" ++ oct v) else none
  | _ => none

/-! ## Reading octal digits -/

/-- The number that octal digits, the most significant first, stand for. -/
def octValue (digits : List ℕ) : ℕ := digits.foldl (fun v d => 8 * v + d) 0

/-- `oct` writes digits, at most 22 of them, that stand for the number. -/
theorem oct_spec (v : BitVec 64) :
    ∃ digits : List ℕ, oct v = digits.map (fun d => BitVec.ofNat 8 (0x30 + d)) ∧
      (∀ d ∈ digits, d < 8) ∧ digits.length ≤ 22 ∧ octValue digits = v.toNat := by
  unfold oct
  split
  · next h =>
    subst h
    exact ⟨[0], rfl, by decide, by decide, rfl⟩
  · refine ⟨(Nat.digits 8 v.toNat).reverse, rfl, ?_, ?_, ?_⟩
    · intro d hd
      exact Nat.digits_lt_base (by decide) (List.mem_reverse.mp hd)
    · rw [List.length_reverse]
      have hlt : v.toNat < 8 ^ 22 := Nat.lt_trans v.isLt (by decide)
      exact (Nat.digits_length_le_iff (by decide) _).mpr hlt
    · have hfold : octValue (Nat.digits 8 v.toNat).reverse =
          Nat.ofDigits 8 (Nat.digits 8 v.toNat) := by
        rw [octValue, List.foldl_reverse, Nat.ofDigits_eq_foldr]
        simp only [Nat.cast_id, Nat.add_comm]
      rw [hfold, Nat.ofDigits_digits]

end PollyInstrew.Server

import Mathlib.Data.List.TakeWhile
import Mathlib.Data.Nat.Digits.Lemmas
import PollyInstrew.Client.Elf

/-!
# Formatted output

`printf_driver` hands pieces of the output to a function that is given to it:
`sprintf_helper` stores them in a buffer of limited size, `dprintf_helper`
collects them in a buffer of 1024 bytes that is written out when it is full.
Both receive the expansion of the format, if that is shorter than 2 GiB.
-/

namespace PollyInstrew.Client

open PollyInstrew.ByteMemory

/-! ## The driver -/

/-- The arguments of a call; a pointer to a string is given as the string. -/
inductive VaArg where
  | int (v : BitVec 32)
  | long (v : Word)
  | str (s : List Byte)
  deriving DecidableEq

def percent : Byte := 0x25#8

def hexDigits : List Byte := literal "0123456789abcdef"

/-- `__builtin_clz`, for a value that is not zero. -/
def clz {w : ℕ} (value : BitVec w) : ℕ := w - 1 - value.toNat.log2

/-- The nibbles of a value that is not zero, from the highest one on. -/
def printNibbles {w : ℕ} (value : BitVec w) (nibbles : ℕ) : List Byte :=
  (List.range nibbles).reverse.map fun i =>
    hexDigits.getD ((value >>> (4 * i)) &&& BitVec.ofNat w 0xf).toNat 0

def nibbleCount {w : ℕ} (value : BitVec w) : ℕ := (w - clz value + 3) >>> 2

/-- The conversions `%x` and `%lx`. -/
def printHex {w : ℕ} (value : BitVec w) : List Byte :=
  printNibbles value (if value = 0 then 1 else nibbleCount value)

/-- The loop of `%u`, which fills the buffer from its end. -/
def printDigits (value : ℕ) (buffer : List Byte) : List Byte :=
  if _h : 0 < value then
    printDigits (value / 10) ((0x30#8 + BitVec.ofNat 8 (value % 10)) :: buffer)
  else
    buffer
termination_by value
decreasing_by omega

def printUnsigned (value : BitVec 32) : List Byte :=
  if value = 0 then [0x30#8] else printDigits value.toNat []

def printPointer (value : Word) : List Byte :=
  if value = 0 then
    literal "(nil)"
  else
    literal "0x" ++ printNibbles value (nibbleCount value)

/-- What a conversion writes, and the arguments that are left; `none` if there is
no argument of its type.  Unknown conversions write nothing. -/
def convert (spec : Byte) (long : Bool) (args : List VaArg) :
    Option (Option (List Byte) × List VaArg) :=
  if spec = 0x73#8 then
    match args with
    | .str s :: args => some (some s, args)
    | _ => none
  else if spec = 0x63#8 then
    match args with
    | .int v :: args => some (some [v.setWidth 8], args)
    | _ => none
  else if spec = 0x70#8 then
    match args with
    | .long v :: args => some (some (printPointer v), args)
    | _ => none
  else if spec = 0x75#8 then
    match args with
    | .int v :: args => some (some (printUnsigned v), args)
    | _ => none
  else if spec = 0x78#8 then
    match args with
    | .int v :: args => some (some (printHex v), args)
    | _ => none
  else if spec = 0x6c#8 ∧ long then
    match args with
    | .long v :: args => some (some (printHex v), args)
    | _ => none
  else
    some (none, args)

section Driver

variable {σ : Type} (write : σ → List Byte → σ)

/-- `write_func(data, buf, len); bytes_written += len`. -/
def emitBytes (s : σ × Word) (bytes : List Byte) : σ × Word :=
  (write s.1 bytes, s.2 + BitVec.ofNat 64 bytes.length)

/-- A length that was stored in an `int`, as the `size_t` it is passed on as;
`none` if it is negative, and then longer than any string. -/
def intLength (n : ℕ) : Option ℕ :=
  if 0 ≤ (BitVec.ofNat 32 n).toInt then some (BitVec.ofNat 32 n).toInt.toNat else none

/-- `printf_driver`, with the sink and the number of bytes written so far. -/
def printfDriver (format : List Byte) (args : List VaArg) (s : σ × Word) : Option (σ × Word) :=
  match _h : format.dropWhile (· ≠ percent) with
  | [] =>
      if format = [] then
        some s
      else
        (intLength format.length).map fun len => emitBytes write s (format.take len)
  | _ :: rest =>
      let text := format.takeWhile (· ≠ percent)
      let s := if text = [] then s else emitBytes write s text
      match rest with
      | [] => some (emitBytes write s [percent])
      | spec :: rest =>
          let long := rest.head? = some 0x78#8
          match convert spec long args with
          | none => none
          | some (out, args) =>
              let s := match out with
                | some bytes => emitBytes write s bytes
                | none => s
              printfDriver (if spec = 0x6c#8 ∧ long then rest.tail else rest) args s
termination_by format.length
decreasing_by
  have hle := (List.dropWhile_sublist (l := format) (· ≠ percent)).length_le
  rw [_h] at hle
  simp only [List.length_cons] at hle
  split
  · simp only [List.length_tail]
    omega
  · omega

end Driver

/-! ## The sinks -/

/-- `struct SPrintfHelperData`, and memory. -/
structure SPrintfHelperData where
  mem : Mem
  buf : Word
  len : Word

def sprintfHelper (data : SPrintfHelperData) (bytes : List Byte) : SPrintfHelperData :=
  let len := BitVec.ofNat 64 bytes.length
  if data.len = 0 then
    { data with mem := writeBytes data.mem data.buf bytes, buf := data.buf + len }
  else if len < data.len then
    ⟨writeBytes data.mem data.buf bytes, data.buf + len, data.len - len⟩
  else
    ⟨writeBytes data.mem data.buf (bytes.take (data.len - 1).toNat), data.buf + (data.len - 1), 1⟩

/-- `vsnprintf`: the result and memory. -/
def vsnprintf (mem : Mem) (str size : Word) (format : List Byte) (args : List VaArg) :
    Option (ℤ × Mem) :=
  (printfDriver sprintfHelper format args (⟨mem, str, size⟩, 0)).map fun s =>
    ((s.2.setWidth 32).toInt, writeBytes s.1.mem s.1.buf [0#8])

/-- `struct DPrintfHelperData`: the bytes in the buffer, and the blocks that were
passed to `write`. -/
structure DPrintfHelperData where
  buf : List Byte
  written : List (List Byte)
  fits : buf.length ≤ 1024

def DPrintfHelperData.init : DPrintfHelperData := ⟨[], [], Nat.zero_le _⟩

def dprintfHelper (data : DPrintfHelperData) (bytes : List Byte) : DPrintfHelperData :=
  if h : bytes.length ≤ 1024 - data.buf.length then
    ⟨data.buf ++ bytes, data.written, by
      have := data.fits
      rw [List.length_append]
      omega⟩
  else if h : bytes.length ≤ 1024 then
    ⟨bytes, data.written ++ [data.buf], h⟩
  else
    ⟨[], data.written ++ [data.buf] ++ [bytes], Nat.zero_le _⟩

/-- The blocks passed to `write` once what is left in the buffer is written, too. -/
def DPrintfHelperData.flush (data : DPrintfHelperData) : List (List Byte) :=
  if data.buf = [] then data.written else data.written ++ [data.buf]

/-- `vdprintf`: the result and the blocks passed to `write`. -/
def vdprintf (format : List Byte) (args : List VaArg) : Option (ℤ × List (List Byte)) :=
  (printfDriver dprintfHelper format args (.init, 0)).map fun s =>
    ((s.2.setWidth 32).toInt, s.1.flush)

/-! ## Numerals -/

/-- The characters are digits to the base `b`, and their value is `v`. -/
def Reads (b : ℕ) (s : List Byte) (v : ℕ) : Prop :=
  ∃ digits : List ℕ, digits ≠ [] ∧ (∀ d ∈ digits, d < b) ∧
    s = digits.map (fun d => hexDigits.getD d 0) ∧ Nat.ofDigits b digits.reverse = v

/-- The numeral of a number, without leading zeros. -/
def numeral (b v : ℕ) : List Byte :=
  if v = 0 then
    [hexDigits.getD 0 0]
  else
    (Nat.digits b v).reverse.map fun d => hexDigits.getD d 0

theorem numeral_reads {b : ℕ} (hb : 1 < b) (v : ℕ) : Reads b (numeral b v) v := by
  by_cases hv : v = 0
  · refine ⟨[0], by simp, ?_, by simp [numeral, hv], by simp [hv]⟩
    intro d hd
    rw [List.mem_singleton.mp hd]
    omega
  · refine ⟨(Nat.digits b v).reverse, ?_, ?_, by simp [numeral, hv], ?_⟩
    · simpa using Nat.digits_ne_nil_iff_ne_zero.mpr hv
    · intro d hd
      exact Nat.digits_lt_base hb (List.mem_reverse.mp hd)
    · rw [List.reverse_reverse, Nat.ofDigits_digits]

theorem numeral_shortest {b : ℕ} (hb : 1 < b) {v : ℕ} {s : List Byte} (h : Reads b s v) :
    (numeral b v).length ≤ s.length := by
  obtain ⟨digits, hne, hlt, rfl, rfl⟩ := h
  have hlen : (digits.map fun d => hexDigits.getD d 0).length = digits.length :=
    List.length_map _
  rw [hlen, numeral]
  split
  · exact List.length_pos_iff.mpr hne
  · rw [List.length_map, List.length_reverse]
    have hpow := Nat.ofDigits_lt_base_pow_length hb (l := digits.reverse) (by simpa using hlt)
    rw [List.length_reverse] at hpow
    rw [Nat.length_digits b _ hb ‹_›]
    exact Nat.log_lt_of_lt_pow ‹_› hpow

theorem decimal_digit : ∀ d < 10, 0x30#8 + BitVec.ofNat 8 d = hexDigits.getD d 0 := by
  decide

theorem printDigits_eq (value : ℕ) (buffer : List Byte) :
    printDigits value buffer =
      ((Nat.digits 10 value).reverse.map fun d => hexDigits.getD d 0) ++ buffer := by
  induction value using Nat.strong_induction_on generalizing buffer with
  | _ value ih =>
      rw [printDigits]
      split
      · rename_i hpos
        rw [ih (value / 10) (by omega), Nat.digits_def' (by decide) hpos,
          decimal_digit _ (Nat.mod_lt _ (by decide))]
        simp
      · rename_i hpos
        obtain rfl : value = 0 := by omega
        simp

theorem printUnsigned_eq (value : BitVec 32) : printUnsigned value = numeral 10 value.toNat := by
  rw [printUnsigned, numeral]
  by_cases hv : value = 0
  · subst hv
    decide
  · have hnat : value.toNat ≠ 0 := fun h => hv (BitVec.eq_of_toNat_eq (by simpa using h))
    rw [if_neg hv, if_neg hnat, printDigits_eq, List.append_nil]

theorem nibble_toNat {w : ℕ} (hw : 4 ≤ w) (value : BitVec w) (i : ℕ) :
    ((value >>> (4 * i)) &&& BitVec.ofNat w 0xf).toNat = value.toNat / 16 ^ i % 16 := by
  have hmask : (BitVec.ofNat w 0xf).toNat = 2 ^ 4 - 1 := by
    have hle : 2 ^ 4 ≤ 2 ^ w := Nat.pow_le_pow_right (by decide) hw
    rw [BitVec.toNat_ofNat]
    exact Nat.mod_eq_of_lt (by omega)
  have hpow : 2 ^ (4 * i) = 16 ^ i := by rw [Nat.pow_mul]
  rw [BitVec.toNat_and, hmask, Nat.and_two_pow_sub_one_eq_mod, BitVec.toNat_ushiftRight,
    Nat.shiftRight_eq_div_pow, hpow]

theorem nibbleCount_eq {w : ℕ} {value : BitVec w} (hv : value.toNat ≠ 0) :
    nibbleCount value = (Nat.digits 16 value.toNat).length := by
  have hlog : value.toNat.log2 < w := (Nat.log2_lt hv).mpr value.isLt
  have h16 : Nat.log 16 value.toNat = value.toNat.log2 / 4 := by
    rw [Nat.log2_eq_log_two]
    exact Nat.log_pow_left 2 4 value.toNat
  rw [Nat.length_digits 16 _ (by decide) hv, h16, nibbleCount, clz, Nat.shiftRight_eq_div_pow]
  omega

theorem printNibbles_eq {w : ℕ} (hw : 4 ≤ w) {value : BitVec w} (hv : value.toNat ≠ 0) :
    printNibbles value (nibbleCount value) = numeral 16 value.toNat := by
  rw [printNibbles, numeral, if_neg hv, List.map_reverse, List.map_reverse, nibbleCount_eq hv]
  congr 1
  apply List.ext_getElem
  · simp
  · intro i hi _
    have hdigit := Nat.getD_digits value.toNat i (b := 16) (by decide)
    have hlt : i < (Nat.digits 16 value.toNat).length := by simpa using hi
    rw [List.getD_eq_getElem?_getD, List.getElem?_eq_getElem hlt, Option.getD_some] at hdigit
    rw [List.getElem_map, List.getElem_map, List.getElem_range, nibble_toNat hw, hdigit]

theorem printHex_eq {w : ℕ} (hw : 4 ≤ w) (value : BitVec w) :
    printHex value = numeral 16 value.toNat := by
  rw [printHex]
  by_cases hv : value = 0
  · subst hv
    simp [printNibbles, numeral]
  · have hnat : value.toNat ≠ 0 := fun h => hv (BitVec.eq_of_toNat_eq (by simpa using h))
    rw [if_neg hv, printNibbles_eq hw hnat]

/-! ## Formats and their expansion -/

/-- A conversion with its argument. -/
inductive Directive where
  | s (str : List Byte)
  | c (chr : BitVec 32)
  | p (value : Word)
  | u (value : BitVec 32)
  | x (value : BitVec 32)
  | lx (value : Word)

def Directive.bytes : Directive → List Byte
  | .s _ => literal "%s"
  | .c _ => literal "%c"
  | .p _ => literal "%p"
  | .u _ => literal "%u"
  | .x _ => literal "%x"
  | .lx _ => literal "%lx"

def Directive.arg : Directive → VaArg
  | .s str => .str str
  | .c chr => .int chr
  | .p value => .long value
  | .u value => .int value
  | .x value => .int value
  | .lx value => .long value

/-- The text a conversion stands for. -/
def Directive.expansion : Directive → List Byte
  | .s str => str
  | .c chr => [chr.setWidth 8]
  | .p value => if value = 0 then literal "(nil)" else literal "0x" ++ numeral 16 value.toNat
  | .u value => numeral 10 value.toNat
  | .x value => numeral 16 value.toNat
  | .lx value => numeral 16 value.toNat

/-- Literal text: no conversion begins in it, and it does not end the format. -/
def Plain (text : List Byte) : Prop := ∀ b ∈ text, b ≠ percent ∧ b ≠ 0#8

/-- A format with its arguments: conversions, each after some text, and the text
at the end. -/
structure Format where
  items : List (List Byte × Directive)
  tail : List Byte
  plain_item : ∀ item ∈ items, Plain item.1
  plain_tail : Plain tail

def Format.bytes (f : Format) : List Byte :=
  (f.items.flatMap fun item => item.1 ++ item.2.bytes) ++ f.tail

def Format.args (f : Format) : List VaArg := f.items.map fun item => item.2.arg

def Format.expansion (f : Format) : List Byte :=
  (f.items.flatMap fun item => item.1 ++ item.2.expansion) ++ f.tail

/-- A text as the driver writes it: not at all if it is empty. -/
def textChunk (text : List Byte) : List (List Byte) := if text = [] then [] else [text]

/-- What the driver writes, piece by piece. -/
def Format.chunks (f : Format) : List (List Byte) :=
  (f.items.flatMap fun item => textChunk item.1 ++ [item.2.expansion]) ++ textChunk f.tail

theorem flatten_textChunk (text : List Byte) : (textChunk text).flatten = text := by
  unfold textChunk
  split
  · simp [*]
  · simp

theorem Format.flatten_chunks (f : Format) : f.chunks.flatten = f.expansion := by
  rw [Format.chunks, Format.expansion, List.flatten_append, flatten_textChunk]
  congr 1
  induction f.items with
  | nil => rfl
  | cons item items ih =>
      simp only [List.flatMap_cons, List.flatten_append, flatten_textChunk, ih,
        List.flatten_singleton]

/-! ## What the driver writes -/

theorem dropWhile_plain {text : List Byte} (h : Plain text) (rest : List Byte) :
    (text ++ percent :: rest).dropWhile (· ≠ percent) = percent :: rest := by
  rw [List.dropWhile_append_of_pos (fun b hb => by simpa using (h b hb).1)]
  simp

theorem takeWhile_plain {text : List Byte} (h : Plain text) (rest : List Byte) :
    (text ++ percent :: rest).takeWhile (· ≠ percent) = text := by
  rw [List.takeWhile_append_of_pos (fun b hb => by simpa using (h b hb).1)]
  simp

theorem convert_directive (d : Directive) (args : List VaArg) :
    ∃ spec rest, d.bytes = percent :: spec :: rest ∧ ∀ after,
      (if spec = 0x6c#8 ∧ (rest ++ after).head? = some 0x78#8 then (rest ++ after).tail
        else rest ++ after) = after ∧
      convert spec (decide ((rest ++ after).head? = some 0x78#8)) (d.arg :: args) =
        some (some d.expansion, args) := by
  cases d with
  | s str => exact ⟨0x73#8, [], rfl, fun after => ⟨rfl, rfl⟩⟩
  | c chr => exact ⟨0x63#8, [], rfl, fun after => ⟨rfl, rfl⟩⟩
  | p value =>
      refine ⟨0x70#8, [], rfl, fun after => ⟨rfl, ?_⟩⟩
      have hprint : printPointer value = (Directive.p value).expansion := by
        rw [printPointer, Directive.expansion]
        split
        · rfl
        · rename_i hv
          have hnat : value.toNat ≠ 0 := fun h => hv (BitVec.eq_of_toNat_eq (by simpa using h))
          rw [printNibbles_eq (by decide) hnat]
      rw [← hprint]
      rfl
  | u value =>
      refine ⟨0x75#8, [], rfl, fun after => ⟨rfl, ?_⟩⟩
      rw [Directive.expansion, ← printUnsigned_eq]
      rfl
  | x value =>
      refine ⟨0x78#8, [], rfl, fun after => ⟨rfl, ?_⟩⟩
      rw [Directive.expansion, ← printHex_eq (by decide)]
      rfl
  | lx value =>
      refine ⟨0x6c#8, [0x78#8], rfl, fun after => ⟨rfl, ?_⟩⟩
      rw [Directive.expansion, ← printHex_eq (by decide)]
      rfl

section Chunks

variable {σ : Type} (write : σ → List Byte → σ)

theorem foldl_textChunk (text : List Byte) (s : σ × Word) :
    (textChunk text).foldl (emitBytes write) s =
      if text = [] then s else emitBytes write s text := by
  unfold textChunk
  split
  · rfl
  · rfl

theorem printfDriver_directive {text : List Byte} (htext : Plain text) (d : Directive)
    (rest : List Byte) (args : List VaArg) (s : σ × Word) :
    printfDriver write (text ++ d.bytes ++ rest) (d.arg :: args) s =
      printfDriver write rest args
        ((textChunk text ++ [d.expansion]).foldl (emitBytes write) s) := by
  obtain ⟨spec, more, hbytes, hconvert⟩ := convert_directive d args
  obtain ⟨hrest, hout⟩ := hconvert rest
  have hformat : text ++ d.bytes ++ rest = text ++ percent :: spec :: (more ++ rest) := by
    rw [hbytes]
    simp
  rw [hformat, printfDriver]
  split
  · rename_i hdrop
    rw [dropWhile_plain htext] at hdrop
    exact absurd hdrop (by simp)
  · rename_i first tail hdrop
    rw [dropWhile_plain htext] at hdrop
    obtain ⟨-, rfl⟩ := List.cons.inj hdrop
    dsimp only
    rw [hout, takeWhile_plain htext]
    dsimp only
    rw [hrest, List.foldl_append, foldl_textChunk]
    rfl

theorem printfDriver_tail {text : List Byte} (htext : Plain text) (hlen : text.length < 2 ^ 31)
    (args : List VaArg) (s : σ × Word) :
    printfDriver write text args s = some ((textChunk text).foldl (emitBytes write) s) := by
  have hdrop : text.dropWhile (· ≠ percent) = [] :=
    List.dropWhile_eq_nil_iff.2 fun b hb => by simpa using (htext b hb).1
  have hint : intLength text.length = some text.length := by
    have htoInt : (BitVec.ofNat 32 text.length).toInt = text.length := by
      rw [BitVec.toInt_eq_toNat_cond, BitVec.toNat_ofNat]
      split <;> omega
    rw [intLength, htoInt, if_pos (by omega), Int.toNat_natCast]
  rw [printfDriver, foldl_textChunk]
  split
  · split
    · rfl
    · rw [hint, Option.map_some, List.take_length]
  · rename_i hcons
    rw [hdrop] at hcons
    exact absurd hcons (by simp)

/-- The driver writes the pieces of the expansion one after the other. -/
theorem printfDriver_format (f : Format) (hlen : f.tail.length < 2 ^ 31) (s : σ × Word) :
    printfDriver write f.bytes f.args s = some (f.chunks.foldl (emitBytes write) s) := by
  obtain ⟨items, tail, hitems, htail⟩ := f
  rw [Format.bytes, Format.args, Format.chunks]
  dsimp only at hlen ⊢
  induction items generalizing s with
  | nil => exact printfDriver_tail write htail hlen [] s
  | cons item items ih =>
      have hfirst := hitems item List.mem_cons_self
      rw [List.flatMap_cons, List.flatMap_cons, List.map_cons, List.append_assoc,
        printfDriver_directive write hfirst,
        ih _ fun i hi => hitems i (List.mem_cons_of_mem _ hi), List.append_assoc,
        ← List.foldl_append]

theorem foldl_emitBytes (chunks : List (List Byte)) (s : σ) (n : Word) :
    chunks.foldl (emitBytes write) (s, n) =
      (chunks.foldl write s, n + BitVec.ofNat 64 chunks.flatten.length) := by
  induction chunks generalizing s n with
  | nil => simp
  | cons chunk chunks ih =>
      rw [List.foldl_cons, emitBytes, ih, List.foldl_cons, List.flatten_cons, List.length_append,
        BitVec.ofNat_add, BitVec.add_assoc]

end Chunks

/-! ## What the sinks receive -/

/-- The buffer after `out` was stored into it, as far as it fits. -/
structure Stored (mem : Mem) (str size : Word) (out : List Byte) (data : SPrintfHelperData) :
    Prop where
  mem_eq : data.mem = writeBytes mem str (out.take (size.toNat - 1))
  buf_eq : data.buf = str + BitVec.ofNat 64 (out.take (size.toNat - 1)).length
  len_eq : data.len.toNat + (out.take (size.toNat - 1)).length = size.toNat

theorem Stored.step {mem : Mem} {str size : Word} {out : List Byte} {data : SPrintfHelperData}
    (hsize : 1 ≤ size.toNat) (h : Stored mem str size out data) {bytes : List Byte}
    (hlen : bytes.length < 2 ^ 64) :
    Stored mem str size (out ++ bytes) (sprintfHelper data bytes) := by
  have hmem := h.mem_eq
  have hbuf := h.buf_eq
  have hrest := h.len_eq
  have hlt := size.isLt
  have htake : (out.take (size.toNat - 1)).length = min (size.toNat - 1) out.length :=
    List.length_take
  have hpos : data.len ≠ 0 := by
    intro hzero
    rw [hzero] at hrest
    simp only [BitVec.ofNat_eq_ofNat, BitVec.toNat_ofNat] at hrest
    omega
  have hbytes : (BitVec.ofNat 64 bytes.length).toNat = bytes.length := by
    rw [BitVec.toNat_ofNat]
    omega
  have hpart : (out ++ bytes).take (size.toNat - 1) =
      out.take (size.toNat - 1) ++ bytes.take (data.len.toNat - 1) := by
    rw [List.take_append]
    congr 2
    omega
  rw [sprintfHelper, if_neg hpos]
  by_cases hfit : BitVec.ofNat 64 bytes.length < data.len
  · rw [if_pos hfit]
    rw [BitVec.lt_def, hbytes] at hfit
    rw [List.take_of_length_le (by omega : bytes.length ≤ data.len.toNat - 1)] at hpart
    refine ⟨?_, ?_, ?_⟩
    · rw [hpart, hmem, hbuf, writeBytes_append _ _ (by omega)]
    · rw [hpart, hbuf, List.length_append, BitVec.ofNat_add, BitVec.add_assoc]
    · rw [hpart, List.length_append, BitVec.toNat_sub_of_le (by rw [BitVec.le_def]; omega), hbytes]
      omega
  · rw [if_neg hfit]
    rw [BitVec.lt_def, hbytes] at hfit
    have hunit : (1 : Word).toNat = 1 := rfl
    have hone : (data.len - 1).toNat = data.len.toNat - 1 := by
      rw [BitVec.toNat_sub_of_le (by rw [BitVec.le_def, hunit]; omega), hunit]
    have hlength : (bytes.take (data.len.toNat - 1)).length = data.len.toNat - 1 := by
      rw [List.length_take]
      omega
    refine ⟨?_, ?_, ?_⟩
    · rw [hpart, hmem, hbuf, hone, writeBytes_append _ _ (by omega)]
    · have hadd : data.len - 1 = BitVec.ofNat 64 (data.len.toNat - 1) := by
        rw [← hone, BitVec.ofNat_toNat, BitVec.setWidth_eq]
      rw [hpart, hbuf, List.length_append, hlength, BitVec.ofNat_add, hadd, BitVec.add_assoc]
    · rw [hpart, List.length_append, hlength, hunit]
      omega

theorem Stored.foldl {mem : Mem} {str size : Word} (hsize : 1 ≤ size.toNat)
    (chunks : List (List Byte)) {out : List Byte} {data : SPrintfHelperData}
    (h : Stored mem str size out data) (hlen : chunks.flatten.length < 2 ^ 64) :
    Stored mem str size (out ++ chunks.flatten) (chunks.foldl sprintfHelper data) := by
  induction chunks generalizing out data with
  | nil => simpa using h
  | cons chunk chunks ih =>
      rw [List.flatten_cons, List.length_append] at hlen
      have hstep := h.step hsize (by omega : chunk.length < 2 ^ 64)
      have hrest := ih hstep (by omega)
      rwa [List.append_assoc, ← List.flatten_cons] at hrest

theorem dprintfHelper_bytes (data : DPrintfHelperData) (bytes : List Byte) :
    (dprintfHelper data bytes).written.flatten ++ (dprintfHelper data bytes).buf =
      data.written.flatten ++ data.buf ++ bytes := by
  unfold dprintfHelper
  split
  · simp
  · split
    · simp
    · simp

theorem foldl_dprintfHelper (chunks : List (List Byte)) (data : DPrintfHelperData) :
    (chunks.foldl dprintfHelper data).written.flatten ++ (chunks.foldl dprintfHelper data).buf =
      data.written.flatten ++ data.buf ++ chunks.flatten := by
  induction chunks generalizing data with
  | nil => simp
  | cons chunk chunks ih =>
      rw [List.foldl_cons, ih, dprintfHelper_bytes, List.flatten_cons, List.append_assoc]

theorem vsnprintf_format (mem : Mem) (str : Word) {size : Word} (hsize : 1 ≤ size.toNat)
    (f : Format) (htail : f.tail.length < 2 ^ 31) (hlen : f.expansion.length < 2 ^ 64) :
    vsnprintf mem str size f.bytes f.args =
      some ((BitVec.ofNat 32 f.expansion.length).toInt,
        writeBytes mem str (f.expansion.take (size.toNat - 1) ++ [0#8])) := by
  have hinit : Stored mem str size [] ⟨mem, str, size⟩ := by
    refine ⟨?_, ?_, ?_⟩
    · funext x
      simp [writeBytes]
    · simp
    · simp
  have hstored := hinit.foldl hsize f.chunks (by rwa [Format.flatten_chunks])
  rw [Format.flatten_chunks, List.nil_append] at hstored
  have hsum := hstored.len_eq
  have hlt := size.isLt
  have htake : (f.expansion.take (size.toNat - 1)).length = min (size.toNat - 1) _ :=
    List.length_take
  rw [vsnprintf, printfDriver_format _ f htail, foldl_emitBytes, Format.flatten_chunks,
    Option.map_some]
  dsimp only
  have hfits : (f.expansion.take (size.toNat - 1)).length + [0#8].length ≤ 2 ^ 64 := by
    rw [List.length_singleton]
    omega
  rw [hstored.mem_eq, hstored.buf_eq, writeBytes_append _ _ hfits]
  simp

theorem DPrintfHelperData.flatten_flush (data : DPrintfHelperData) :
    data.flush.flatten = data.written.flatten ++ data.buf := by
  rw [DPrintfHelperData.flush]
  split
  · rename_i hempty
    rw [hempty, List.append_nil]
  · rw [List.flatten_append, List.flatten_singleton]

theorem vdprintf_format (f : Format) (htail : f.tail.length < 2 ^ 31) :
    ∃ blocks, vdprintf f.bytes f.args =
        some ((BitVec.ofNat 32 f.expansion.length).toInt, blocks) ∧
      blocks.flatten = f.expansion := by
  refine ⟨(f.chunks.foldl dprintfHelper .init).flush, ?_, ?_⟩
  · rw [vdprintf, printfDriver_format _ f htail, foldl_emitBytes, Format.flatten_chunks,
      Option.map_some]
    simp
  · rw [DPrintfHelperData.flatten_flush, foldl_dprintfHelper, Format.flatten_chunks]
    rfl

theorem toInt_ofNat_eq_iff (n : ℕ) : (BitVec.ofNat 32 n).toInt = n ↔ n < 2 ^ 31 := by
  rw [BitVec.toInt_eq_toNat_cond, BitVec.toNat_ofNat]
  split
  · omega
  · omega

/-- Formatted output is the expansion of the format, if the text at its end is
shorter than 2 GiB; the results of `vsnprintf` and `vdprintf` are `int`. -/
theorem formatted_output (f : Format) (htail : f.tail.length < 2 ^ 31)
    (hlen : f.expansion.length < 2 ^ 64) :
    (∃ chunks : List (List Byte), chunks.flatten = f.expansion ∧
      ∀ {σ : Type} (write : σ → List Byte → σ) (s : σ),
        printfDriver write f.bytes f.args (s, 0) =
          some (chunks.foldl write s, BitVec.ofNat 64 f.expansion.length)) ∧
    (∃ result blocks, (∀ (mem : Mem) (str size : Word), 1 ≤ size.toNat →
        let stored := f.expansion.take (size.toNat - 1) ++ [0#8]
        vsnprintf mem str size f.bytes f.args = some (result, writeBytes mem str stored) ∧
        ∀ x, ¬InRange str size.toNat x → writeBytes mem str stored x = mem x) ∧
      vdprintf f.bytes f.args = some (result, blocks) ∧ blocks.flatten = f.expansion ∧
      (result = f.expansion.length ↔ f.expansion.length < 2 ^ 31)) ∧
    (∀ b ∈ [10, 16], ∀ v, Reads b (numeral b v) v ∧
      ∀ t, Reads b t v → (numeral b v).length ≤ t.length) := by
  refine ⟨⟨f.chunks, f.flatten_chunks, ?_⟩, ?_, ?_⟩
  · intro σ write s
    rw [printfDriver_format write f htail, foldl_emitBytes, f.flatten_chunks]
    simp
  · obtain ⟨blocks, hblocks, hflat⟩ := vdprintf_format f htail
    refine ⟨_, blocks, ?_, hblocks, hflat, toInt_ofNat_eq_iff _⟩
    intro mem str size hsize
    refine ⟨vsnprintf_format mem str hsize f htail hlen, fun x hx => ?_⟩
    apply writeBytes_of_not_inRange
    intro hin
    refine hx (Nat.lt_of_lt_of_le hin ?_)
    rw [List.length_append, List.length_take, List.length_singleton]
    omega
  · intro b hb v
    have hbase : 1 < b := by
      simp only [List.mem_cons, List.not_mem_nil, or_false] at hb
      omega
    exact ⟨numeral_reads hbase v, fun t ht => numeral_shortest hbase ht⟩

/-- `"%u bytes at %p%c"` with the arguments 4095, `0x1f40` and a line feed. -/
def sizeFormat : Format where
  items := [([], .u 4095), (literal " bytes at ", .p 0x1f40), ([], .c 10)]
  tail := []
  plain_item := by unfold Plain; decide
  plain_tail := by unfold Plain; decide

example : sizeFormat.bytes = literal "%u bytes at %p%c" ∧
    sizeFormat.expansion = literal "4095 bytes at 0x1f40\n" := by
  decide +kernel

theorem formatted_output_size :
    vdprintf sizeFormat.bytes sizeFormat.args = some (21, [literal "4095 bytes at 0x1f40\n"]) ∧
    ∃ result blocks, vdprintf sizeFormat.bytes sizeFormat.args = some (result, blocks) ∧
      blocks.flatten = sizeFormat.expansion ∧ result = 21 := by
  have hlength : sizeFormat.expansion.length = 21 := by decide +kernel
  obtain ⟨-, ⟨result, blocks, -, hrun, hflat, hresult⟩, -⟩ :=
    formatted_output sizeFormat (by decide) (by rw [hlength]; decide)
  have hvalue : result = 21 := by
    have h := hresult.mpr (by rw [hlength]; decide)
    rwa [hlength] at h
  refine ⟨?_, result, blocks, hrun, hflat, hvalue⟩
  decide +kernel

/-- `"%s"` with a string of 2 GiB. -/
def longFormat : Format where
  items := [([], .s (List.replicate (2 ^ 31) 0x61#8))]
  tail := []
  plain_item := by
    intro item hitem
    rw [List.mem_singleton.mp hitem]
    intro b hb
    exact absurd hb (List.not_mem_nil)
  plain_tail := fun b hb => absurd hb (List.not_mem_nil)

/-- `vsnprintf` does not return the length of every expansion. -/
theorem vsnprintf_wraps :
    longFormat.expansion.length = 2 ^ 31 ∧
      ¬∃ mem, vsnprintf (fun _ => 0) 0x1000 1 longFormat.bytes longFormat.args =
        some (((longFormat.expansion.length : ℕ) : ℤ), mem) := by
  have hlength : longFormat.expansion.length = 2 ^ 31 := by
    simp only [longFormat, Format.expansion, List.flatMap_cons, List.flatMap_nil,
      Directive.expansion, List.nil_append, List.append_nil, List.length_replicate]
  refine ⟨hlength, ?_⟩
  rintro ⟨mem, hrun⟩
  rw [vsnprintf_format _ _ (by decide) longFormat (by decide) (by rw [hlength]; decide)] at hrun
  have hresult := (toInt_ofNat_eq_iff _).mp (Prod.mk.inj (Option.some.inj hrun)).1
  rw [hlength] at hresult
  exact Nat.lt_irrefl _ hresult

end PollyInstrew.Client

import PollyInstrew.Support.ByteMemory

/-!
# Pre-decoding guest code

`IWState::Predecode` explores the code of a guest function block by block and
feeds block offsets and instruction bytes to the cache key; `IWState::Lift`
passes the instructions on to the lifter with the address of their block.  The
instruction decoder and the guest memory it reads are parameters.
-/

namespace PollyInstrew.Server

open PollyInstrew.ByteMemory

/-- A 64-bit machine word: `uintptr_t`, `uint64_t` and `size_t` of the server. -/
abbrev Word := BitVec 64

/-! ## Decoders -/

/-- The kinds of `DecodeResult`. -/
inductive DecodeKind where
  | failed
  | normal
  | branch
  | condBranch
  | call
  | unknownTgt
  deriving DecidableEq, Repr

/-- `struct DecodeResult`. -/
structure DecodeResult where
  result : DecodeKind
  size : BitVec 8
  branchTarget : Word
  deriving DecidableEq, Repr

/-- A decode function, applied to an address and the bytes read there. -/
abbrev DecodeFunc := Word → List Byte → DecodeResult

/-- The guest as the server sees it while it translates: its decode function,
and what `iw_readmem` puts into `inst_buf` for an address. -/
structure Guest where
  decodeFn : DecodeFunc
  readmem : Word → List Byte

def Guest.decode (g : Guest) (addr : Word) : DecodeResult := g.decodeFn addr (g.readmem addr)

/-- Address of the following instruction. -/
def DecodeResult.next (res : DecodeResult) (addr : Word) : Word :=
  addr + res.size.setWidth 64

/-! ## Predecode -/

/-- The options `Predecode` reads. -/
structure PredecodeConfig where
  granularity : ℤ
  callret : Bool
  deriving DecidableEq, Repr

/-- `struct DecodedInst`. -/
structure DecodedInst where
  addr : Word
  size : BitVec 8
  newBlock : Bool
  deriving DecidableEq, Repr

/-- The local variables of `Predecode`; `sha` is what has been fed to the hash. -/
structure Predecoder where
  insts : List DecodedInst
  addrMap : Word → Option ℕ
  addrQueue : List Word
  sha : List Byte

/-- `insts[idx].new_block = true`. -/
def Predecoder.setNewBlock (s : Predecoder) (idx : ℕ) : Predecoder :=
  { s with insts := s.insts.modify idx fun inst => { inst with newBlock := true } }

/-- Bookkeeping for an instruction that was decoded. -/
def Predecoder.addInst (s : Predecoder) (g : Guest) (start addr : Word) (newBlock : Bool) :
    Predecoder :=
  let res := g.decode addr
  { s with
    insts := s.insts ++ [⟨addr, res.size, newBlock⟩]
    addrMap := Function.update s.addrMap addr (some s.insts.length)
    sha := s.sha ++ (if newBlock then leBytes 8 (addr - start).toNat else []) ++
      (g.readmem addr).take res.size.toNat }

def Predecoder.enqueue (s : Predecoder) (addrs : List Word) : Predecoder :=
  { s with addrQueue := s.addrQueue ++ addrs }

/-- The inner loop of `Predecode` from `curAddr` on; `none` when out of fuel. -/
def decodeBlock (cfg : PredecodeConfig) (g : Guest) (start : Word) :
    ℕ → Word → Bool → Predecoder → Option Predecoder
  | 0, _, _, _ => none
  | fuel + 1, curAddr, newBlock, s =>
      match s.addrMap curAddr with
      | some idx => some (s.setNewBlock idx)
      | none =>
          let res := g.decode curAddr
          if res.result = .failed then
            some s
          else
            let s := s.addInst g start curAddr newBlock
            let curAddr := res.next curAddr
            if cfg.granularity ≤ 0 then
              some s
            else
              match res.result with
              | .branch => some (s.enqueue [res.branchTarget])
              | .condBranch => some (s.enqueue [res.branchTarget, curAddr])
              | .call => some (if cfg.callret then s.enqueue [curAddr] else s)
              | .unknownTgt => some s
              | _ => decodeBlock cfg g start fuel curAddr false s

/-- Fuel for one block: an iteration that goes on adds a new address. -/
def blockFuel : ℕ := 2 ^ 64 + 1

/-- The outer loop of `Predecode`. -/
def decodeQueue (cfg : PredecodeConfig) (g : Guest) (start : Word) :
    ℕ → Predecoder → Option Predecoder
  | 0, _ => none
  | fuel + 1, s =>
      match s.addrQueue with
      | [] => some s
      | curAddr :: rest => do
          let s ← decodeBlock cfg g start blockFuel curAddr true { s with addrQueue := rest }
          if cfg.granularity ≤ 1 then some s else decodeQueue cfg g start fuel s

/-- Fuel for the queue: a block adds at most two addresses to it. -/
def queueFuel : ℕ := 2 * 2 ^ 64 + 2

/-- `IWState::Predecode`. -/
def predecode (cfg : PredecodeConfig) (g : Guest) (start : Word) : Option Predecoder :=
  decodeQueue cfg g start queueFuel ⟨[], fun _ => none, [start], []⟩

/-! ## Lift -/

/-- A call of `ll_func_add_instr`: the address of the block and that of the
instruction. -/
structure AddInstr where
  blockAddr : Word
  addr : Word
  deriving DecidableEq, Repr

/-- The loop of `IWState::Lift` over the instructions from index `i` on: the
calls it makes, and whether it goes through.  `ret i` is the result of the call
for instruction `i`.  After a result that is not the instruction's size, the
first instruction ends the loop and others skip the rest of their block. -/
def liftLoop (ret : ℕ → ℤ) : ℕ → Bool → Word → List DecodedInst → List AddInstr × Bool
  | _, _, _, [] => ([], true)
  | i, skip, blockAddr, inst :: insts =>
      let blockAddr := if inst.newBlock then inst.addr else blockAddr
      if skip ∧ ¬inst.newBlock then
        liftLoop ret (i + 1) true blockAddr insts
      else if ret i ≠ inst.size.toNat ∧ i = 0 then
        ([⟨blockAddr, inst.addr⟩], false)
      else
        let rest := liftLoop ret (i + 1) (ret i ≠ inst.size.toNat) blockAddr insts
        (⟨blockAddr, inst.addr⟩ :: rest.1, rest.2)

/-- The calls of `ll_func_add_instr` that `IWState::Lift` makes, and whether it
goes on to lift the function. -/
def lift (ret : ℕ → ℤ) (insts : List DecodedInst) : List AddInstr × Bool :=
  liftLoop ret 0 false 0#64 insts

end PollyInstrew.Server

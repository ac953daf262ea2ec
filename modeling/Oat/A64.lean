import Mathlib.Data.List.Basic
import Mathlib.Logic.Basic

/-!
# The A64 instructions that transfer control

A subset of the instruction set: the direct and indirect branches, the
conditional branches, `CSET`, and one constructor for everything else,
which only goes on to the next instruction. An immediate is a bit vector
of its own width, so every value of the type is an instruction.
-/

namespace Oat

namespace A64

inductive Cond where
  | eq | ne | hs | lo | mi | pl | vs | vc
  | hi | ls | ge | lt | gt | le | al | nv
deriving Repr, DecidableEq

namespace Cond

def code : Cond → BitVec 4
  | eq => 0 | ne => 1 | hs => 2 | lo => 3 | mi => 4 | pl => 5 | vs => 6 | vc => 7
  | hi => 8 | ls => 9 | ge => 10 | lt => 11 | gt => 12 | le => 13 | al => 14 | nv => 15

/-- The condition with the lowest bit flipped. -/
def inverse : Cond → Cond
  | eq => ne | ne => eq | hs => lo | lo => hs | mi => pl | pl => mi | vs => vc | vc => vs
  | hi => ls | ls => hi | ge => lt | lt => ge | gt => le | le => gt | al => nv | nv => al

def name : Cond → String
  | eq => "eq" | ne => "ne" | hs => "hs" | lo => "lo" | mi => "mi" | pl => "pl"
  | vs => "vs" | vc => "vc" | hi => "hi" | ls => "ls" | ge => "ge" | lt => "lt"
  | gt => "gt" | le => "le" | al => "al" | nv => "nv"

end Cond

/-- `sf` selects the 64-bit register, `rd`, `rn`, `rt` name one of 31, or
the zero register. -/
inductive Insn where
  | other (word : BitVec 32)
  | b (imm26 : BitVec 26)
  | bCond (cond : Cond) (imm19 : BitVec 19)
  | bl (imm26 : BitVec 26)
  | br (rn : Fin 32)
  | blr (rn : Fin 32)
  | ret (rn : Fin 32)
  | cbz (sf : Bool) (imm19 : BitVec 19) (rt : Fin 32)
  | cbnz (sf : Bool) (imm19 : BitVec 19) (rt : Fin 32)
  | tbz (bit : Fin 64) (imm14 : BitVec 14) (rt : Fin 32)
  | tbnz (bit : Fin 64) (imm14 : BitVec 14) (rt : Fin 32)
  | cset (sf : Bool) (cond : Cond) (rd : Fin 32)
deriving Repr, DecidableEq

def x0 : Fin 32 := 0

/-- The link register. -/
def lr : Fin 32 := 30

/-- Where a branch with immediate `imm` at address `a` leads. -/
def target {w : Nat} (a : Int) (imm : BitVec w) : Int := a + 4 * imm.toInt

/-! ## Encoding -/

def reg5 (r : Fin 32) : BitVec 5 := BitVec.ofFin r

/-- Bit numbers are split: the top bit goes where `sf` is. -/
def tbFields (bit : Fin 64) : BitVec 1 × BitVec 5 :=
  let bits : BitVec 6 := BitVec.ofFin bit
  (bits.extractLsb' 5 1, bits.extractLsb' 0 5)

def Insn.encode : Insn → BitVec 32
  | .other word => word
  | .b imm26 => 0b000101#6 ++ imm26
  | .bCond cond imm19 => 0b01010100#8 ++ imm19 ++ 0#1 ++ cond.code
  | .bl imm26 => 0b100101#6 ++ imm26
  | .br rn => 0b1101011000011111000000#22 ++ reg5 rn ++ 0#5
  | .blr rn => 0b1101011000111111000000#22 ++ reg5 rn ++ 0#5
  | .ret rn => 0b1101011001011111000000#22 ++ reg5 rn ++ 0#5
  | .cbz sf imm19 rt => BitVec.ofBool sf ++ 0b0110100#7 ++ imm19 ++ reg5 rt
  | .cbnz sf imm19 rt => BitVec.ofBool sf ++ 0b0110101#7 ++ imm19 ++ reg5 rt
  | .tbz bit imm14 rt => (tbFields bit).1 ++ 0b0110110#7 ++ (tbFields bit).2 ++ imm14 ++ reg5 rt
  | .tbnz bit imm14 rt => (tbFields bit).1 ++ 0b0110111#7 ++ (tbFields bit).2 ++ imm14 ++ reg5 rt
  | .cset sf cond rd => -- CSINC rd, zr, zr, invert(cond)
      BitVec.ofBool sf ++ 0b0011010100#10 ++ 0b11111#5 ++ cond.inverse.code ++ 0b01#2 ++ 0b11111#5
        ++ reg5 rd

example : (Insn.bl 1).encode = 0x94000001#32 := by decide
example : (Insn.ret lr).encode = 0xd65f03c0#32 := by decide
example : (Insn.cset false .eq x0).encode = 0x1a9f17e0#32 := by decide

/-! ## Kinds of instructions -/

/-- A BL at `a` to `t`. -/
def Insn.calls (a t : Int) : Insn → Bool
  | .bl imm26 => target a imm26 = t
  | _ => false

def Insn.isCondBranch : Insn → Bool
  | .bCond _ _ => true
  | .cbz _ _ _ => true
  | .cbnz _ _ _ => true
  | .tbz _ _ _ => true
  | .tbnz _ _ _ => true
  | _ => false

end A64

end Oat

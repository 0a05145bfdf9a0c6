import Mathlib.Algebra.GroupWithZero.Nat
import Mathlib.Data.List.Basic
import Mathlib.Data.Nat.Init
namespace Zveltio.ClassicBpf

abbrev Byte := BitVec 8

abbrev Word := BitVec 32

-- struct sock_filter
structure Instruction where
  code : BitVec 16
  jt : Byte
  jf : Byte
  k : Word
  deriving DecidableEq

-- How a conditional jump compares the accumulator with its constant, unsigned.
inductive Test where
  | eq | gt | ge | set

def Test.holds (acc k : Word) : Test → Bool
  | .eq => acc = k
  | .gt => k < acc
  | .ge => k ≤ acc
  | .set => acc &&& k ≠ 0

inductive Op where
  | loadAbs | and | always
  | jump (test : Test)
  | ret

-- The codes of linux/filter.h for the operations with a constant.
def opOf : Nat → Option Op
  | 0x20 => some .loadAbs
  | 0x54 => some .and
  | 0x05 => some .always
  | 0x15 => some (.jump .eq)
  | 0x25 => some (.jump .gt)
  | 0x35 => some (.jump .ge)
  | 0x45 => some (.jump .set)
  | 0x06 => some .ret
  | _ => none

-- Jumps go forward alone: skip counts the instructions still to pass over. none: a fault.
def run (load : Nat → Option Word) : List Instruction → Nat → Word → Option Word
  | [],_,_ => none
  | _::rest,skip+1,acc => run load rest skip acc
  | instruction::rest,0,acc => match opOf instruction.code.toNat with
    | some .loadAbs => (load instruction.k.toNat).bind (run load rest 0)
    | some .and => run load rest 0 (acc &&& instruction.k)
    | some .always => run load rest instruction.k.toNat acc
    | some (.jump test) => run load rest (if test.holds acc instruction.k then instruction.jt else instruction.jf).toNat acc
    | some .ret => some instruction.k
    | none => none

-- What the kernel asks of an instruction with so many after it.
def Instruction.fits (inside : Nat → Bool) (instruction : Instruction) (after : Nat) : Bool :=
  match opOf instruction.code.toNat with
  | some .loadAbs => inside instruction.k.toNat && 0 < after
  | some .and => 0 < after
  | some .always => instruction.k.toNat < after
  | some (.jump _) => instruction.jt.toNat < after && instruction.jf.toNat < after
  | some .ret => true
  | none => false

def fitting (inside : Nat → Bool) : List Instruction → Bool
  | [] => true
  | instruction::rest => instruction.fits inside rest.length && fitting inside rest

def BPF_MAXINSNS : Nat := 4096

-- A program the kernel attaches; its last instruction returns, since nothing else fits there.
def attached (inside : Nat → Bool) (program : List Instruction) : Bool :=
  0 < program.length && program.length ≤ BPF_MAXINSNS && fitting inside program

-- A number in so many bytes of memory, the lowest first.
def bytesOf : Nat → Nat → List Byte
  | 0,_ => []
  | width+1,value => BitVec.ofNat 8 value::bytesOf width (value / 256)

def valueOf : List Byte → Nat
  | [] => 0
  | byte::rest => byte.toNat + 256 * valueOf rest

theorem valueOf_bytesOf (width value : Nat) : valueOf (bytesOf width value) = value % 256 ^ width := by
  induction width generalizing value with
  | zero => simp [bytesOf,valueOf,Nat.mod_one]
  | succ width ih =>
    have octet : 2 ^ 8 = 256 := rfl
    rw [bytesOf,valueOf,ih,BitVec.toNat_ofNat,octet,Nat.pow_succ',Nat.mod_mul]

theorem ofNat_bytes (width value : Nat) : BitVec.ofNat (8 * width) (valueOf (bytesOf width value)) = BitVec.ofNat (8 * width) value := by
  apply BitVec.eq_of_toNat_eq
  rw [valueOf_bytesOf,BitVec.toNat_ofNat,BitVec.toNat_ofNat,Nat.pow_mul,Nat.mod_mod]

def instruction (code jt jf k : Nat) : Instruction := ⟨BitVec.ofNat 16 code,BitVec.ofNat 8 jt,BitVec.ofNat 8 jf,BitVec.ofNat 32 k⟩

def recordOf (code jt jf k : Nat) : List Byte := bytesOf 2 code ++ bytesOf 1 jt ++ bytesOf 1 jf ++ bytesOf 4 k

-- The records of eight bytes of a program; none where bytes are left.
def readProgram : List Byte → Option (List Instruction)
  | [] => some []
  | c0::c1::jt::jf::k0::k1::k2::k3::rest =>
    (readProgram rest).map fun program =>
      ⟨BitVec.ofNat 16 (valueOf [c0,c1]),BitVec.ofNat 8 (valueOf [jt]),BitVec.ofNat 8 (valueOf [jf]),BitVec.ofNat 32 (valueOf [k0,k1,k2,k3])⟩::program
  | _ => none

theorem readProgram_record (code jt jf k : Nat) (rest : List Byte) :
    readProgram (recordOf code jt jf k ++ rest) = (readProgram rest).map fun program => instruction code jt jf k::program := by
  have read : readProgram (recordOf code jt jf k ++ rest) = (readProgram rest).map fun program =>
      ⟨BitVec.ofNat 16 (valueOf (bytesOf 2 code)),BitVec.ofNat 8 (valueOf (bytesOf 1 jt)),BitVec.ofNat 8 (valueOf (bytesOf 1 jf)),
        BitVec.ofNat 32 (valueOf (bytesOf 4 k))⟩::program := rfl
  rw [read,ofNat_bytes 2,ofNat_bytes 1,ofNat_bytes 1,ofNat_bytes 4]
  rfl

-- A program as a table of its instructions' fields: code, jt, jf and k.
def assembled (table : List (Nat × Nat × Nat × Nat)) : List Instruction :=
  table.map fun entry => instruction entry.1 entry.2.1 entry.2.2.1 entry.2.2.2

def written (table : List (Nat × Nat × Nat × Nat)) : List Byte :=
  table.flatMap fun entry => recordOf entry.1 entry.2.1 entry.2.2.1 entry.2.2.2

theorem readProgram_written (table : List (Nat × Nat × Nat × Nat)) : readProgram (written table) = some (assembled table) := by
  induction table with
  | nil => rfl
  | cons first rest ih =>
    have split : written (first::rest) = recordOf first.1 first.2.1 first.2.2.1 first.2.2.2 ++ written rest := List.flatMap_cons
    rw [split,readProgram_record,ih]
    rfl

-- struct seccomp_data
structure SeccompData where
  nr : Word
  arch : Word
  instruction_pointer : BitVec 64
  args : Fin 6 → BitVec 64

def low (wide : BitVec 64) : Word := wide.setWidth 32

def high (wide : BitVec 64) : Word := (wide >>> 32).setWidth 32

-- A word of it, as a little-endian machine has it.
def SeccompData.load (data : SeccompData) (offset : Nat) : Option Word :=
  if offset % 4 ≠ 0 then none
  else match offset / 4 with
    | 0 => some data.nr
    | 1 => some data.arch
    | 2 => some (low data.instruction_pointer)
    | 3 => some (high data.instruction_pointer)
    | place+4 => if bound : place / 2 < 6 then
        let arg := data.args ⟨place / 2,bound⟩
        some (if place % 2 = 0 then low arg else high arg)
      else none

def insideData (offset : Nat) : Bool := offset % 4 = 0 && offset < 64

end Zveltio.ClassicBpf

import Cpl.Numeric
import Cpl.Position

/-!
# Quads

Instructions of a machine with named slots. Each has an opcode and operands; a jump says where it
goes either by a line number, counted from one, or by a number of lines forward or backward from
its own line. While code is being put together a list may also hold breaks that do not know yet
where they go.
-/

namespace Cpl

inductive Arith where
  | add
  | sub
  | mul
  | div
deriving DecidableEq, Repr

/-- The comparisons the machine has. -/
inductive Compare where
  | equal
  | unequal
  | less
  | greater
deriving DecidableEq, Repr

/-- What an instruction does. All but the jumps exist for integers and for reals. -/
inductive Opcode where
  | assign (type : NumType)
  | input (type : NumType)
  | print (type : NumType)
  | arith (operation : Arith) (type : NumType)
  /-- The type is that of the operands; the result is an integer, zero or one. -/
  | compare (comparison : Compare) (type : NumType)
  /-- Conversion to the type from the other one. -/
  | convert (goal : NumType)
  | jump
  | jumpIfZero
  | halt
deriving DecidableEq, Repr

namespace Opcode

/-- The letter that tells the integer from the real variant. -/
def letter : NumType → String
  | .int => "I"
  | .float => "R"

def mnemonic : Opcode → String
  | assign type => letter type ++ "ASN"
  | input type => letter type ++ "INP"
  | print type => letter type ++ "PRT"
  | arith .add type => letter type ++ "ADD"
  | arith .sub type => letter type ++ "SUB"
  | arith .mul type => letter type ++ "MLT"
  | arith .div type => letter type ++ "DIV"
  | compare .equal type => letter type ++ "EQL"
  | compare .unequal type => letter type ++ "NQL"
  | compare .less type => letter type ++ "LSS"
  | compare .greater type => letter type ++ "GRT"
  | convert .float => "ITOR"
  | convert .int => "RTOI"
  | jump => "JUMP"
  | jumpIfZero => "JMPZ"
  | halt => "HALT"

/-- Every opcode. -/
def all : List Opcode :=
  [NumType.int, .float].flatMap (fun type =>
    [assign type, input type, print type, convert type] ++
      [Arith.add, .sub, .mul, .div].map (arith · type) ++
      [Compare.equal, .unequal, .less, .greater].map (compare · type)) ++
    [jump, jumpIfZero, halt]

/-- The opcode with the given mnemonic. -/
def ofMnemonic? (s : String) : Option Opcode :=
  all.find? fun op => op.mnemonic == s

theorem mem_all (op : Opcode) : op ∈ all := by
  rcases op with t | t | t | ⟨o, t⟩ | ⟨o, t⟩ | t | _ | _ | _ <;>
    first | (cases o <;> cases t <;> decide) | (cases t <;> decide) | decide

end Opcode

/-- Where a jump goes. -/
inductive Target where
  /-- To a line, counted from one. -/
  | line (number : Nat)
  /-- So many lines down; by one is the next instruction. -/
  | forward (offset : Nat)
  /-- So many lines up. -/
  | backward (offset : Nat)
deriving DecidableEq, Repr

namespace Target

def isResolved : Target → Bool
  | line _ => true
  | _ => false

def text : Target → String
  | line number => toString number
  | forward offset => "%+" ++ toString offset
  | backward offset => "%-" ++ toString offset

end Target

inductive Operand where
  /-- A declared variable or a temporary. -/
  | name (slot : String)
  | literal (value : Literal)
  | jump (target : Target)
deriving DecidableEq, Repr

namespace Operand

def text : Operand → String
  | name slot => slot
  | literal value => value.text
  | jump target => target.text

/-- Is a jump target relative to its line. -/
def isRelative : Operand → Bool
  | jump target => !target.isResolved
  | _ => false

end Operand

inductive Instruction where
  | quad (opcode : Opcode) (operands : List Operand)
  /-- A break whose loop or switch is still open. -/
  | openBreak (position : Position)
deriving DecidableEq, Repr

namespace Instruction

def jump (target : Target) : Instruction :=
  quad .jump [.jump target]

/-- Jumps when the operand is zero. -/
def jumpIfZero (target : Target) (condition : Operand) : Instruction :=
  quad .jumpIfZero [.jump target, condition]

def halt : Instruction :=
  quad .halt []

def opcode? : Instruction → Option Opcode
  | quad opcode _ => some opcode
  | openBreak _ => none

def operands : Instruction → List Operand
  | quad _ operands => operands
  | openBreak _ => []

/-- The position of an open break. -/
def openBreak? : Instruction → Option Position
  | quad _ _ => none
  | openBreak position => some position

/-- Has a jump target that is relative to its line. -/
def hasRelativeJump (i : Instruction) : Bool :=
  i.operands.any Operand.isRelative

/-- The mnemonic and the operands, with a blank before each operand. -/
def text : Instruction → String
  | quad opcode operands => opcode.mnemonic ++ String.join (operands.map fun o => " " ++ o.text)
  | openBreak _ => "%BREAK"

end Instruction

end Cpl

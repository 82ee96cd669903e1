/-!
The opcodes of the virtual machine: for each its mnemonic and the layout of its operands. Opcodes
behind the last row are reserved.
-/

namespace Recompose

/-- What follows an opcode in the code. -/
inductive Operand where
  /-- Nothing; some opcodes imply their operand. -/
  | none
  /-- A signed byte. -/
  | byte
  /-- A signed two-byte number. -/
  | short
  /-- A one-byte slot of a loadable constant. -/
  | constantByte
  /-- A two-byte slot of a loadable constant. -/
  | constant
  /-- A local variable. -/
  | slot
  /-- A local variable and a signed byte. -/
  | increment
  /-- A signed two-byte distance. -/
  | branch
  /-- A signed four-byte distance. -/
  | branchWide
  /-- Padding, a default distance, bounds and a distance for each value between them. -/
  | tableSwitch
  /-- Padding, a default distance and pairs of value and distance. -/
  | lookupSwitch
  /-- A slot of a field. -/
  | field
  /-- A slot of a method. -/
  | method
  /-- A slot of a method and two more bytes. -/
  | interfaceMethod
  /-- A slot of a call site and two more bytes. -/
  | dynamic
  /-- A slot of a class. -/
  | classRef
  /-- An unsigned byte that names an element type. -/
  | arrayType
  /-- A slot of a class and a number of dimensions. -/
  | multiArray
  /-- An opcode with its operands widened. -/
  | wide
deriving DecidableEq, Repr

namespace Operand

def name : Operand → String
  | none => "None"
  | byte => "Byte"
  | short => "Short"
  | constantByte => "ConstantByte"
  | constant => "Constant"
  | slot => "Local"
  | increment => "Iinc"
  | branch => "Branch"
  | branchWide => "BranchWide"
  | tableSwitch => "TableSwitch"
  | lookupSwitch => "LookupSwitch"
  | field => "Field"
  | method => "Method"
  | interfaceMethod => "InterfaceMethod"
  | dynamic => "Dynamic"
  | classRef => "Class"
  | arrayType => "ArrayType"
  | multiArray => "MultiArray"
  | wide => "Wide"

end Operand

namespace Opcode

/-- Mnemonic and operand layout by opcode. -/
def table : Array (String × Operand) :=
  #[
    ("nop", .none), ("aconst_null", .none), ("iconst_m1", .none), ("iconst_0", .none),
    ("iconst_1", .none), ("iconst_2", .none), ("iconst_3", .none), ("iconst_4", .none),
    ("iconst_5", .none), ("lconst_0", .none), ("lconst_1", .none), ("fconst_0", .none),
    ("fconst_1", .none), ("fconst_2", .none), ("dconst_0", .none), ("dconst_1", .none),
    ("bipush", .byte), ("sipush", .short), ("ldc", .constantByte), ("ldc_w", .constant),
    ("ldc2_w", .constant), ("iload", .slot), ("lload", .slot), ("fload", .slot), ("dload", .slot),
    ("aload", .slot), ("iload_0", .none), ("iload_1", .none), ("iload_2", .none),
    ("iload_3", .none), ("lload_0", .none), ("lload_1", .none), ("lload_2", .none),
    ("lload_3", .none), ("fload_0", .none), ("fload_1", .none), ("fload_2", .none),
    ("fload_3", .none), ("dload_0", .none), ("dload_1", .none), ("dload_2", .none),
    ("dload_3", .none), ("aload_0", .none), ("aload_1", .none), ("aload_2", .none),
    ("aload_3", .none), ("iaload", .none), ("laload", .none), ("faload", .none), ("daload", .none),
    ("aaload", .none), ("baload", .none), ("caload", .none), ("saload", .none), ("istore", .slot),
    ("lstore", .slot), ("fstore", .slot), ("dstore", .slot), ("astore", .slot), ("istore_0", .none),
    ("istore_1", .none), ("istore_2", .none), ("istore_3", .none), ("lstore_0", .none),
    ("lstore_1", .none), ("lstore_2", .none), ("lstore_3", .none), ("fstore_0", .none),
    ("fstore_1", .none), ("fstore_2", .none), ("fstore_3", .none), ("dstore_0", .none),
    ("dstore_1", .none), ("dstore_2", .none), ("dstore_3", .none), ("astore_0", .none),
    ("astore_1", .none), ("astore_2", .none), ("astore_3", .none), ("iastore", .none),
    ("lastore", .none), ("fastore", .none), ("dastore", .none), ("aastore", .none),
    ("bastore", .none), ("castore", .none), ("sastore", .none), ("pop", .none), ("pop2", .none),
    ("dup", .none), ("dup_x1", .none), ("dup_x2", .none), ("dup2", .none), ("dup2_x1", .none),
    ("dup2_x2", .none), ("swap", .none), ("iadd", .none), ("ladd", .none), ("fadd", .none),
    ("dadd", .none), ("isub", .none), ("lsub", .none), ("fsub", .none), ("dsub", .none),
    ("imul", .none), ("lmul", .none), ("fmul", .none), ("dmul", .none), ("idiv", .none),
    ("ldiv", .none), ("fdiv", .none), ("ddiv", .none), ("irem", .none), ("lrem", .none),
    ("frem", .none), ("drem", .none), ("ineg", .none), ("lneg", .none), ("fneg", .none),
    ("dneg", .none), ("ishl", .none), ("lshl", .none), ("ishr", .none), ("lshr", .none),
    ("iushr", .none), ("lushr", .none), ("iand", .none), ("land", .none), ("ior", .none),
    ("lor", .none), ("ixor", .none), ("lxor", .none), ("iinc", .increment), ("i2l", .none),
    ("i2f", .none), ("i2d", .none), ("l2i", .none), ("l2f", .none), ("l2d", .none), ("f2i", .none),
    ("f2l", .none), ("f2d", .none), ("d2i", .none), ("d2l", .none), ("d2f", .none), ("i2b", .none),
    ("i2c", .none), ("i2s", .none), ("lcmp", .none), ("fcmpl", .none), ("fcmpg", .none),
    ("dcmpl", .none), ("dcmpg", .none), ("ifeq", .branch), ("ifne", .branch), ("iflt", .branch),
    ("ifge", .branch), ("ifgt", .branch), ("ifle", .branch), ("if_icmpeq", .branch),
    ("if_icmpne", .branch), ("if_icmplt", .branch), ("if_icmpge", .branch), ("if_icmpgt", .branch),
    ("if_icmple", .branch), ("if_acmpeq", .branch), ("if_acmpne", .branch), ("goto", .branch),
    ("jsr", .branch), ("ret", .slot), ("tableswitch", .tableSwitch),
    ("lookupswitch", .lookupSwitch), ("ireturn", .none), ("lreturn", .none), ("freturn", .none),
    ("dreturn", .none), ("areturn", .none), ("return", .none), ("getstatic", .field),
    ("putstatic", .field), ("getfield", .field), ("putfield", .field), ("invokevirtual", .method),
    ("invokespecial", .method), ("invokestatic", .method), ("invokeinterface", .interfaceMethod),
    ("invokedynamic", .dynamic), ("new", .classRef), ("newarray", .arrayType),
    ("anewarray", .classRef), ("arraylength", .none), ("athrow", .none), ("checkcast", .classRef),
    ("instanceof", .classRef), ("monitorenter", .none), ("monitorexit", .none), ("wide", .wide),
    ("multianewarray", .multiArray), ("ifnull", .branch), ("ifnonnull", .branch),
    ("goto_w", .branchWide), ("jsr_w", .branchWide)
  ]

/-- The row of an opcode, unless it is reserved. -/
def info? (opcode : UInt8) : Option (String × Operand) :=
  table[opcode.toNat]?

/-- The mnemonic of an opcode, with a stand-in for reserved ones. -/
def mnemonic (opcode : UInt8) : String :=
  match info? opcode with
  | some (mnemonic, _) => mnemonic
  | none => "???"

/-! ## Opcodes with rules of their own -/

def aconstNull : UInt8 := 0x01
def iconst0 : UInt8 := 0x03
def bipush : UInt8 := 0x10
def sipush : UInt8 := 0x11
def ldc : UInt8 := 0x12
def ldcW : UInt8 := 0x13
def ldc2W : UInt8 := 0x14
def iload : UInt8 := 0x15
def aload : UInt8 := 0x19
def iload0 : UInt8 := 0x1A
def istore : UInt8 := 0x36
def astore : UInt8 := 0x3A
def istore0 : UInt8 := 0x3B
def iinc : UInt8 := 0x84
def ifeq : UInt8 := 0x99
def ifne : UInt8 := 0x9A
def goto : UInt8 := 0xA7
def jsr : UInt8 := 0xA8
def ret : UInt8 := 0xA9
def getstatic : UInt8 := 0xB2
def putstatic : UInt8 := 0xB3
def getfield : UInt8 := 0xB4
def invokevirtual : UInt8 := 0xB6
def invokespecial : UInt8 := 0xB7
def invokestatic : UInt8 := 0xB8
def invokeinterface : UInt8 := 0xB9
def invokedynamic : UInt8 := 0xBA
def newarray : UInt8 := 0xBC
def wide : UInt8 := 0xC4
def ifnull : UInt8 := 0xC6
def gotoW : UInt8 := 0xC8

end Opcode

end Recompose

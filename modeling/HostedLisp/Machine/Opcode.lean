/-!
# Operation codes and instructions

The operation codes of the target machine: those of the current instruction set, numbered below 256,
and those of the older one that the compiler emits, numbered from 300.

A program for the stack machine is a list of instructions. Besides operations, a list holds labels,
line markers and references to global names that are expanded when the code is assembled.

- `Opcode`: the operation codes, with `Opcode.name` and `Opcode.number`.
- `Opcode.ofName?`: look one up by name.
- `Opcode.operand`: what the argument of an operation refers to.
- `Opcode.fixedEffect`: the values popped and pushed, where they do not depend on the argument.
- `Label`: a jump target. Labels are compared by name and told apart by `id`.
- `Op`, `Instr`: an instruction with its argument, of any type `α` of values.
- `CodeUnit`: the code of one function with its arguments and free variables.
-/

namespace HostedLisp.Machine

inductive Opcode where
  | cache | popTop | pushNull | nop | unaryPositive | unaryNegative | unaryNot | unaryInvert
  | binarySubscr | getLen | matchMapping | matchSequence | matchKeys | pushExcInfo
  | checkExcMatch | checkEgMatch | withExceptStart | getAiter | getAnext | beforeAsyncWith
  | beforeWith | endAsyncFor | storeSubscr | deleteSubscr | getIter | getYieldFromIter
  | printExpr | loadBuildClass | loadAssertionError | returnGenerator | listToTuple | returnValue
  | importStar | setupAnnotations | yieldValue | asyncGenWrap | prepReraiseStar | popExcept
  | storeName | deleteName | unpackSequence | forIter | unpackEx | storeAttr | deleteAttr
  | storeGlobal | deleteGlobal | swap | loadConst | loadName | buildTuple | buildList | buildSet
  | buildMap | loadAttr | compareOp | importName | importFrom | jumpForward | jumpIfFalseOrPop
  | jumpIfTrueOrPop | popJumpForwardIfFalse | popJumpForwardIfTrue | loadGlobal | isOp
  | containsOp | reraise | copy | binaryOp | send | loadFast | storeFast | deleteFast
  | popJumpForwardIfNotNone | popJumpForwardIfNone | raiseVarargs | getAwaitable | makeFunction
  | buildSlice | jumpBackwardNoInterrupt | makeCell | loadClosure | loadDeref | storeDeref
  | deleteDeref | jumpBackward | callFunctionEx | listAppend | setAdd | mapAdd | loadClassderef
  | copyFreeVars | resume | matchClass | formatValue | buildConstKeyMap | buildString
  | loadMethod | listExtend | setUpdate | dictMerge | dictUpdate | precall | call | kwNames
  | popJumpBackwardIfNotNone | popJumpBackwardIfNone | popJumpBackwardIfFalse
  | popJumpBackwardIfTrue | binaryAdd | binaryAnd | binaryDivide | binaryFloorDivide
  | binaryLshift | binaryModulo | binaryMultiply | binaryOr | binaryPower | binaryRshift
  | binarySubtract | binaryTrueDivide | binaryXor | breakLoop | buildClass | callFunction
  | callFunctionKw | callFunctionVar | callFunctionVarKw | continueLoop | deleteSlice0
  | deleteSlice1 | deleteSlice2 | deleteSlice3 | dupTop | dupTopx | endFinally | execStmt
  | inplaceAdd | inplaceAnd | inplaceDivide | inplaceFloorDivide | inplaceLshift | inplaceModulo
  | inplaceMultiply | inplaceOr | inplacePower | inplaceRshift | inplaceSubtract
  | inplaceTrueDivide | inplaceXor | jumpAbsolute | jumpIfFalse | jumpIfTrue | loadLocals
  | makeClosure | popBlock | popJumpIfFalse | popJumpIfTrue | printItem | printItemTo
  | printNewline | printNewlineTo | rotFour | rotThree | rotTwo | setupExcept | setupFinally
  | setupLoop | setupWith | slice0 | slice1 | slice2 | slice3 | stopCode | storeMap | storeSlice0
  | storeSlice1 | storeSlice2 | storeSlice3 | unaryConvert | withCleanup
  deriving DecidableEq, Repr, Inhabited

namespace Opcode

/-- The names and the numbers of the current operation codes, in the order in which they stand
above. -/
def current : Array (String × Nat) := #[
  ("CACHE", 0), ("POP_TOP", 1), ("PUSH_NULL", 2), ("NOP", 9), ("UNARY_POSITIVE", 10),
  ("UNARY_NEGATIVE", 11), ("UNARY_NOT", 12), ("UNARY_INVERT", 15), ("BINARY_SUBSCR", 25),
  ("GET_LEN", 30), ("MATCH_MAPPING", 31), ("MATCH_SEQUENCE", 32), ("MATCH_KEYS", 33),
  ("PUSH_EXC_INFO", 35), ("CHECK_EXC_MATCH", 36), ("CHECK_EG_MATCH", 37), ("WITH_EXCEPT_START", 49),
  ("GET_AITER", 50), ("GET_ANEXT", 51), ("BEFORE_ASYNC_WITH", 52), ("BEFORE_WITH", 53),
  ("END_ASYNC_FOR", 54), ("STORE_SUBSCR", 60), ("DELETE_SUBSCR", 61), ("GET_ITER", 68),
  ("GET_YIELD_FROM_ITER", 69), ("PRINT_EXPR", 70), ("LOAD_BUILD_CLASS", 71),
  ("LOAD_ASSERTION_ERROR", 74), ("RETURN_GENERATOR", 75), ("LIST_TO_TUPLE", 82),
  ("RETURN_VALUE", 83), ("IMPORT_STAR", 84), ("SETUP_ANNOTATIONS", 85), ("YIELD_VALUE", 86),
  ("ASYNC_GEN_WRAP", 87), ("PREP_RERAISE_STAR", 88), ("POP_EXCEPT", 89), ("STORE_NAME", 90),
  ("DELETE_NAME", 91), ("UNPACK_SEQUENCE", 92), ("FOR_ITER", 93), ("UNPACK_EX", 94),
  ("STORE_ATTR", 95), ("DELETE_ATTR", 96), ("STORE_GLOBAL", 97), ("DELETE_GLOBAL", 98),
  ("SWAP", 99), ("LOAD_CONST", 100), ("LOAD_NAME", 101), ("BUILD_TUPLE", 102), ("BUILD_LIST", 103),
  ("BUILD_SET", 104), ("BUILD_MAP", 105), ("LOAD_ATTR", 106), ("COMPARE_OP", 107),
  ("IMPORT_NAME", 108), ("IMPORT_FROM", 109), ("JUMP_FORWARD", 110), ("JUMP_IF_FALSE_OR_POP", 111),
  ("JUMP_IF_TRUE_OR_POP", 112), ("POP_JUMP_FORWARD_IF_FALSE", 114),
  ("POP_JUMP_FORWARD_IF_TRUE", 115), ("LOAD_GLOBAL", 116), ("IS_OP", 117), ("CONTAINS_OP", 118),
  ("RERAISE", 119), ("COPY", 120), ("BINARY_OP", 122), ("SEND", 123), ("LOAD_FAST", 124),
  ("STORE_FAST", 125), ("DELETE_FAST", 126), ("POP_JUMP_FORWARD_IF_NOT_NONE", 128),
  ("POP_JUMP_FORWARD_IF_NONE", 129), ("RAISE_VARARGS", 130), ("GET_AWAITABLE", 131),
  ("MAKE_FUNCTION", 132), ("BUILD_SLICE", 133), ("JUMP_BACKWARD_NO_INTERRUPT", 134),
  ("MAKE_CELL", 135), ("LOAD_CLOSURE", 136), ("LOAD_DEREF", 137), ("STORE_DEREF", 138),
  ("DELETE_DEREF", 139), ("JUMP_BACKWARD", 140), ("CALL_FUNCTION_EX", 142), ("LIST_APPEND", 145),
  ("SET_ADD", 146), ("MAP_ADD", 147), ("LOAD_CLASSDEREF", 148), ("COPY_FREE_VARS", 149),
  ("RESUME", 151), ("MATCH_CLASS", 152), ("FORMAT_VALUE", 155), ("BUILD_CONST_KEY_MAP", 156),
  ("BUILD_STRING", 157), ("LOAD_METHOD", 160), ("LIST_EXTEND", 162), ("SET_UPDATE", 163),
  ("DICT_MERGE", 164), ("DICT_UPDATE", 165), ("PRECALL", 166), ("CALL", 171), ("KW_NAMES", 172),
  ("POP_JUMP_BACKWARD_IF_NOT_NONE", 173), ("POP_JUMP_BACKWARD_IF_NONE", 174),
  ("POP_JUMP_BACKWARD_IF_FALSE", 175), ("POP_JUMP_BACKWARD_IF_TRUE", 176)]

/-- The names of the older ones, which are numbered in a row. -/
def older : Array String := #[
  "BINARY_ADD", "BINARY_AND", "BINARY_DIVIDE", "BINARY_FLOOR_DIVIDE", "BINARY_LSHIFT",
  "BINARY_MODULO", "BINARY_MULTIPLY", "BINARY_OR", "BINARY_POWER", "BINARY_RSHIFT",
  "BINARY_SUBTRACT", "BINARY_TRUE_DIVIDE", "BINARY_XOR", "BREAK_LOOP", "BUILD_CLASS",
  "CALL_FUNCTION", "CALL_FUNCTION_KW", "CALL_FUNCTION_VAR", "CALL_FUNCTION_VAR_KW", "CONTINUE_LOOP",
  "DELETE_SLICE_0", "DELETE_SLICE_1", "DELETE_SLICE_2", "DELETE_SLICE_3", "DUP_TOP", "DUP_TOPX",
  "END_FINALLY", "EXEC_STMT", "INPLACE_ADD", "INPLACE_AND", "INPLACE_DIVIDE",
  "INPLACE_FLOOR_DIVIDE", "INPLACE_LSHIFT", "INPLACE_MODULO", "INPLACE_MULTIPLY", "INPLACE_OR",
  "INPLACE_POWER", "INPLACE_RSHIFT", "INPLACE_SUBTRACT", "INPLACE_TRUE_DIVIDE", "INPLACE_XOR",
  "JUMP_ABSOLUTE", "JUMP_IF_FALSE", "JUMP_IF_TRUE", "LOAD_LOCALS", "MAKE_CLOSURE", "POP_BLOCK",
  "POP_JUMP_IF_FALSE", "POP_JUMP_IF_TRUE", "PRINT_ITEM", "PRINT_ITEM_TO", "PRINT_NEWLINE",
  "PRINT_NEWLINE_TO", "ROT_FOUR", "ROT_THREE", "ROT_TWO", "SETUP_EXCEPT", "SETUP_FINALLY",
  "SETUP_LOOP", "SETUP_WITH", "SLICE_0", "SLICE_1", "SLICE_2", "SLICE_3", "STOP_CODE", "STORE_MAP",
  "STORE_SLICE_0", "STORE_SLICE_1", "STORE_SLICE_2", "STORE_SLICE_3", "UNARY_CONVERT",
  "WITH_CLEANUP"]

def table : Array (String × Nat) := current ++ older.mapIdx fun i n => (n, 300 + i)

def name (o : Opcode) : String := (table.getD o.ctorIdx ("", 0)).1

def number (o : Opcode) : Nat := (table.getD o.ctorIdx ("", 0)).2

def all : List Opcode := (List.range table.size).map ofNat

def ofName? (s : String) : Option Opcode := all.find? fun o => o.name == s

/-- Operations numbered from 90 on are followed by an argument. -/
def hasArgument (o : Opcode) : Bool := o.number ≥ 90

/-- What the argument of an operation refers to. -/
inductive Operand where
  | none
  /-- A number that is used as it stands. -/
  | plain
  /-- A value of the table of constants. -/
  | constant
  /-- A global or attribute name. -/
  | name
  /-- The label to jump to. -/
  | jump
  /-- A local variable. -/
  | localVar
  /-- A comparison operator. -/
  | comparison
  /-- A variable shared with an inner or outer function. -/
  | free
  deriving DecidableEq, Repr

def operand : Opcode → Operand
  | .kwNames | .loadConst => .constant
  | .deleteAttr | .deleteGlobal | .deleteName | .importFrom | .importName | .loadAttr
  | .loadGlobal | .loadMethod | .loadName | .storeAttr | .storeGlobal | .storeName => .name
  | .forIter | .jumpBackward | .jumpBackwardNoInterrupt | .jumpForward | .jumpIfFalseOrPop
  | .jumpIfTrueOrPop | .popJumpBackwardIfFalse | .popJumpBackwardIfNone
  | .popJumpBackwardIfNotNone | .popJumpBackwardIfTrue | .popJumpForwardIfFalse
  | .popJumpForwardIfNone | .popJumpForwardIfNotNone | .popJumpForwardIfTrue | .send => .jump
  | .deleteFast | .loadFast | .storeFast => .localVar
  | .compareOp => .comparison
  | .deleteDeref | .loadClassderef | .loadClosure | .loadDeref | .makeCell | .storeDeref => .free
  | o => if o.hasArgument then .plain else .none

/-- Operations that make a function out of a code constant. -/
def makesFunction : Opcode → Bool
  | .makeClosure | .makeFunction => true
  | _ => false

/-- How many values an operation pops and pushes, where that does not depend on its argument. -/
def fixedEffect : Opcode → Option (Nat × Nat)
  | .deleteFast | .deleteGlobal | .deleteName | .nop | .printNewline => some (0, 0)
  | .buildMap | .loadClosure | .loadConst | .loadDeref | .loadFast | .loadGlobal
  | .loadLocals | .loadName => some (0, 1)
  | .deleteAttr | .deleteSlice0 | .importStar | .popTop | .printExpr | .printItem
  | .printNewlineTo | .setAdd | .storeDeref | .storeFast | .storeGlobal | .storeName => some (1, 0)
  | .getIter | .loadAttr | .slice0 | .unaryConvert | .unaryInvert | .unaryNegative
  | .unaryNot | .unaryPositive => some (1, 1)
  | .dupTop | .importFrom => some (1, 2)
  | .deleteSlice1 | .deleteSlice2 | .deleteSubscr | .mapAdd | .printItemTo | .storeAttr
  | .storeMap | .storeSlice0 => some (2, 0)
  | .binaryAdd | .binaryAnd | .binaryDivide | .binaryFloorDivide | .binaryLshift
  | .binaryModulo | .binaryMultiply | .binaryOr | .binaryPower | .binaryRshift
  | .binarySubscr | .binarySubtract | .binaryTrueDivide | .binaryXor | .compareOp
  | .inplaceAdd | .inplaceAnd | .inplaceDivide | .inplaceFloorDivide | .inplaceLshift
  | .inplaceModulo | .inplaceMultiply | .inplaceOr | .inplacePower | .inplaceRshift
  | .inplaceSubtract | .inplaceTrueDivide | .inplaceXor | .slice1 | .slice2 => some (2, 1)
  | .rotTwo => some (2, 2)
  | .deleteSlice3 | .execStmt | .storeSlice1 | .storeSlice2 | .storeSubscr => some (3, 0)
  | .buildClass | .slice3 => some (3, 1)
  | .rotThree => some (3, 3)
  | .storeSlice3 => some (4, 0)
  | .rotFour => some (4, 4)
  | _ => none

end Opcode

/-! ## Instructions and code units -/

/-- A jump target. Only a `hashable` label can serve as a key. -/
structure Label where
  id : Nat
  name : String
  hashable : Bool := false
  deriving DecidableEq, Repr, Inhabited

inductive Op where
  | code (opcode : Opcode)
  /-- The code that follows belongs to the source line given as argument. -/
  | lineMarker
  | label (label : Label)
  /-- Load the value of a name of a namespace. -/
  | global (ns name : String)
  deriving DecidableEq, Repr, Inhabited

/-- How an instruction was put together: as a fixed pair or as a list of two. -/
inductive Pairing where
  | pair
  | list
  deriving DecidableEq, Repr, Inhabited

structure Instr (α : Type) where
  op : Op
  arg : α
  pairing : Pairing := .pair

/-- The code of one function. -/
structure CodeUnit (α : Type) where
  instrs : List (Instr α)
  freevars : List α
  args : List α
  varargs : Bool
  varkwargs : Bool
  newlocals : Bool
  name : String
  file : String
  firstLine : Int
  docstring : Option String

end HostedLisp.Machine

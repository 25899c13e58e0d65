import ScriptBytecode.Word
import ScriptBytecode.Location
import ScriptBytecode.Atom

/-!
# Errors

Every failure is one of the causes below; `Error.message` is the only place that words them.
-/

namespace ScriptBytecode

/-- A construct that the compiler does not cover. -/
inductive Unsupported where
  | metaProperty (object property : String)
  | deleteSuperProperty
  | computedKeyBesideRest
  | defaultExportDeclaration
  | tooManyArguments
  | tooManyLocals
  | tooManyClosureVars
deriving DecidableEq

/-- A construct used where the code around it forbids it. -/
inductive Misuse where
  | superKeyword
  | superOutsideMethod
  | superCallOutsideDerived
  | privateNameOnSuper
  | spreadOutsideList
  | newTargetOutsideFunction
  | importMetaOutsideModule
  | bigIntLiteral (text : String)
  | deleteIdentifierInStrict
  | deletePrivateField
  | compoundTarget
  | templateEscape
  | methodWithoutBody
  | privateNameInObject
  | returnOutsideFunction
  | withInStrict
  | classWithoutName
  | importOutsideModule
  | exportOutsideModule
  | undefinedLabel (name : String)
  | duplicateLabel (name : String)
  | breakOutsideLoop
  | continueOutsideLoop
  | constWithoutInitializer
  | patternWithoutInitializer
  | forAwaitOutsideAsync
  | privateConstructor
  | duplicatePrivateName (name : String)
  | memberInBinding
  | restOutsidePattern
  | optionalAssignmentTarget
  | assignmentTarget
  | strictAssignment (name : String)
  | undefinedPrivateField (name : String)
  | privateWithoutBrand (name : String)
  | privateWithoutGetter (name : String)
  | privateWithoutSetter (name : String)
  | privateNotWritable (name : String)
  | duplicateImport (name : String)
  | undeclaredExport
  | yieldOutsideGenerator
  | yieldStarWithoutOperand
  | awaitOutsideAsync
deriving DecidableEq

/-- Why a value cannot be written as an object. -/
inductive WriteFault where
  | unknownAtom (atom : Atom)
  | countTooLarge (count : Nat)
  | variableCount (name : Atom) (found slots : Nat)
deriving DecidableEq

/-- Why bytes are not an object. -/
inductive ReadFault where
  | truncatedLeb
  | overlongLeb
  | endOfInput
  | missingBytes (count : Nat)
  | outOfRange (field : String) (value : Nat)
  | invalidUtf16
  | invalidUtf8
  | invalidAtomIndex (index : Nat)
  | integerAtomRange
  | invalidVersion (found expected : Nat)
  | trailingBytes
  | invalidTag (byte : Nat)
  | unsupportedTag (name : String)
  | templateRaw (found : String)
  | referencesRefused
  | objectUnfinished (index : Nat)
  | invalidReference (index : Nat)
  | localCount (stored expected : Nat)
  | invalidVarKind (bits : Nat)
  | invalidExport (type : Nat)
  | moduleBody (found : String)
deriving DecidableEq

/-- A broken promise between two stages: code that no compilation produces. -/
inductive InternalFault where
  | truncatedInstr (offset : Nat)
  | jumpOutside (offset : Nat) (target : Int)
  | pseudoSurvived (name : String)
  | boundTwice (label : Nat)
  | jumpTooLong (distance : Int) (name : String)
  | stackUnderflow (pc : Nat) (name : String) (needs depth : Nat)
  | stackTooLarge
  | jumpInsideInstr (pc : Nat)
  | malformedPseudo (name : String)
  | optionalOutsideChain
  | jumpWithoutLabel
  | emptyLoopHead
  | entryOutsideModule
  | missingFunction
  | noFunctionRecord
  | treeTooDeep
deriving DecidableEq

inductive Error where
  | unsupported (what : Unsupported) (place : Location)
  | invalidContext (what : Misuse) (place : Location)
  | unknownOpcode (byte offset : Nat)
  | unresolvedLabel (label : Nat)
  | unwritable (why : WriteFault)
  | unreadable (why : ReadFault) (offset : Nat)
  | malformedJson
  | internal (why : InternalFault)
deriving DecidableEq

abbrev Result := Except Error

private def quoted (text : String) : String :=
  "'" ++ text ++ "'"

def Unsupported.message : Unsupported → String
  | metaProperty object property => "meta property " ++ object ++ "." ++ property
  | deleteSuperProperty => "delete of a super property"
  | computedKeyBesideRest => "computed key in an object pattern with a rest element"
  | defaultExportDeclaration => "default export declaration"
  | tooManyArguments => "too many arguments"
  | tooManyLocals => "too many local variables"
  | tooManyClosureVars => "too many closure variables"

def Misuse.message : Misuse → String
  | superKeyword => "'super' keyword unexpected here"
  | superOutsideMethod => "'super' outside of a method"
  | superCallOutsideDerived => "super() outside of a derived class constructor"
  | privateNameOnSuper => "private name on super"
  | spreadOutsideList => "spread element outside of a list"
  | newTargetOutsideFunction => "new.target outside of a function"
  | importMetaOutsideModule => "import.meta outside of a module"
  | bigIntLiteral text => "invalid BigInt literal " ++ quoted text
  | deleteIdentifierInStrict => "delete of an unqualified identifier in strict mode"
  | deletePrivateField => "delete of a private field"
  | compoundTarget => "invalid compound assignment target"
  | templateEscape => "invalid escape sequence in template"
  | methodWithoutBody => "method without a function body"
  | privateNameInObject => "private name in an object literal"
  | returnOutsideFunction => "return outside of a function"
  | withInStrict => "with statement in strict mode"
  | classWithoutName => "class declaration without a name"
  | importOutsideModule => "import declaration outside of a module"
  | exportOutsideModule => "export declaration outside of a module"
  | undefinedLabel name => "undefined label " ++ quoted name
  | duplicateLabel name => "duplicate label " ++ quoted name
  | breakOutsideLoop => "break outside of a loop or switch"
  | continueOutsideLoop => "continue outside of a loop"
  | constWithoutInitializer => "missing initializer in const declaration"
  | patternWithoutInitializer => "missing initializer in destructuring declaration"
  | forAwaitOutsideAsync => "for await outside of an async function"
  | privateConstructor => "private name '#constructor'"
  | duplicatePrivateName name => "duplicate private name " ++ quoted name
  | memberInBinding => "member expression in a binding pattern"
  | restOutsidePattern => "rest element outside of a pattern"
  | optionalAssignmentTarget => "optional chain as an assignment target"
  | assignmentTarget => "invalid assignment target"
  | strictAssignment name => "invalid assignment to " ++ quoted name ++ " in strict mode"
  | undefinedPrivateField name => "undefined private field " ++ quoted name
  | privateWithoutBrand name => "no brand for private name " ++ quoted name
  | privateWithoutGetter name => "private name has no getter " ++ quoted name
  | privateWithoutSetter name => "private name has no setter " ++ quoted name
  | privateNotWritable name => "private name is not writable " ++ quoted name
  | duplicateImport name => "duplicate import binding " ++ quoted name
  | undeclaredExport => "export of an undeclared binding"
  | yieldOutsideGenerator => "yield outside of a generator"
  | yieldStarWithoutOperand => "yield* without an operand"
  | awaitOutsideAsync => "await outside of an async function"

def WriteFault.message : WriteFault → String
  | unknownAtom atom => atom.text ++ " is not in the atom table"
  | countTooLarge count => "count " ++ toString count ++ " too large"
  | variableCount name found slots =>
    "function " ++ name.text ++ " has " ++ toString found ++ " variable definitions for "
      ++ toString slots ++ " slots"

def ReadFault.message : ReadFault → String
  | truncatedLeb => "truncated leb128 value"
  | overlongLeb => "leb128 value longer than 5 bytes"
  | endOfInput => "unexpected end of input"
  | missingBytes count => "expected " ++ toString count ++ " more bytes"
  | outOfRange field value => field ++ " " ++ toString value ++ " out of range"
  | invalidUtf16 => "invalid UTF-16 string"
  | invalidUtf8 => "function source is not valid UTF-8"
  | invalidAtomIndex index => "invalid atom index " ++ toString index
  | integerAtomRange => "integer atom out of range"
  | invalidVersion found expected =>
    "invalid version " ++ toString found ++ " (expected " ++ toString expected ++ ")"
  | trailingBytes => "trailing bytes after object"
  | invalidTag byte => "invalid tag " ++ toString byte
  | unsupportedTag name => "unsupported tag " ++ name
  | templateRaw found => "template raw strings must be an array, got " ++ found
  | referencesRefused => "object references are not allowed"
  | objectUnfinished index => "reference to object " ++ toString index ++ " under construction"
  | invalidReference index => "invalid object reference " ++ toString index
  | localCount stored expected =>
    "local count " ++ toString stored ++ " does not match " ++ toString expected
  | invalidVarKind bits => "invalid variable kind " ++ toString bits
  | invalidExport type => "invalid export type " ++ toString type
  | moduleBody found => "module body must be a function, got " ++ found

def InternalFault.message : InternalFault → String
  | truncatedInstr offset => "truncated instruction at offset " ++ toString offset
  | jumpOutside offset target =>
    "jump at offset " ++ toString offset ++ " targets " ++ toString target ++ " outside the function"
  | pseudoSurvived name => "temporary opcode " ++ name ++ " survived resolution"
  | boundTwice label => "label " ++ toString label ++ " bound twice"
  | jumpTooLong distance name => "jump distance " ++ toString distance ++ " does not fit " ++ name
  | stackUnderflow pc name needs depth =>
    "stack underflow at pc " ++ toString pc ++ " (" ++ name ++ " needs " ++ toString needs
      ++ ", depth " ++ toString depth ++ ")"
  | stackTooLarge => "stack size exceeds 65535"
  | jumpInsideInstr pc => "jump at pc " ++ toString pc ++ " lands inside an instruction"
  | malformedPseudo name => "malformed temporary instruction " ++ name
  | optionalOutsideChain => "optional link outside of a chain"
  | jumpWithoutLabel => "jump target without a label"
  | emptyLoopHead => "empty loop head declaration"
  | entryOutsideModule => "module entry outside of a module"
  | missingFunction => "nested function compiled out of order"
  | noFunctionRecord => "compiled value has no function record"
  | treeTooDeep => "syntax tree deeper than announced"

namespace Error

def message : Error → String
  | unsupported what place => "UnsupportedConstruct: " ++ what.message ++ " at " ++ place.text
  | invalidContext what place => "InvalidContext: " ++ what.message ++ " at " ++ place.text
  | unknownOpcode byte offset =>
    "UnknownOpcode: 0x" ++ hexByte byte.toUInt8 ++ " at offset " ++ toString offset
  | unresolvedLabel label =>
    "UnresolvedLabel: label " ++ toString label ++ " is referenced but never bound"
  | unwritable why => "SerializeError: " ++ why.message
  | unreadable why offset => "DeserializeError: " ++ why.message ++ " at offset " ++ toString offset
  | malformedJson => "JsonError"
  | internal why => "InternalError: " ++ why.message

/-- The source place that an error points at. -/
def place? : Error → Option Location
  | unsupported _ place => some place
  | invalidContext _ place => some place
  | _ => none

end Error

end ScriptBytecode

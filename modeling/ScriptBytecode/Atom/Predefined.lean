import ScriptBytecode.Atom

/-!
# Predefined atoms

The names that every atom table starts with, in the order of their handles from one on. String atoms
come first, then the brand of private methods, then the well-known symbols.
-/

namespace ScriptBytecode.Atom

def predefinedStrings : List String := [
  "null", "false", "true", "if", "else", "return", "var", "this", "delete", "void", "typeof",
  "new", "in", "instanceof", "do", "while", "for", "break", "continue", "switch", "case",
  "default", "throw", "try", "catch", "finally", "function", "debugger", "with", "class", "const",
  "enum", "export", "extends", "import", "super", "implements", "interface", "let", "package",
  "private", "protected", "public", "static", "yield", "await", "", "length", "fileName",
  "lineNumber", "message", "errors", "stack", "name", "toString", "toLocaleString", "valueOf",
  "eval", "prototype", "constructor", "configurable", "writable", "enumerable", "value", "get",
  "set", "of", "__proto__", "undefined", "number", "boolean", "string", "object", "symbol",
  "integer", "unknown", "arguments", "callee", "caller", "<eval>", "<ret>", "<var>", "<arg_var>",
  "<with>", "lastIndex", "target", "index", "input", "defineProperties", "apply", "join",
  "concat", "split", "construct", "getPrototypeOf", "setPrototypeOf", "isExtensible",
  "preventExtensions", "has", "deleteProperty", "defineProperty", "getOwnPropertyDescriptor",
  "ownKeys", "add", "done", "next", "values", "source", "flags", "global", "unicode", "raw",
  "new.target", "this.active_func", "<home_object>", "<computed_field>",
  "<static_computed_field>", "<class_fields_init>", "<brand>", "#constructor", "as", "from",
  "meta", "*default*", "*", "Module", "then", "resolve", "reject", "promise", "proxy", "revoke",
  "async", "exec", "groups", "status", "reason", "globalThis", "toJSON", "Object", "Array",
  "Error", "Number", "String", "Boolean", "Symbol", "Arguments", "Math", "JSON", "Date",
  "Function", "GeneratorFunction", "ForInIterator", "RegExp", "ArrayBuffer", "SharedArrayBuffer",
  "Uint8ClampedArray", "Int8Array", "Uint8Array", "Int16Array", "Uint16Array", "Int32Array",
  "Uint32Array", "BigInt64Array", "BigUint64Array", "Float32Array", "Float64Array", "DataView",
  "BigInt", "Map", "Set", "WeakMap", "WeakSet", "Map Iterator", "Set Iterator", "Array Iterator",
  "String Iterator", "RegExp String Iterator", "Generator", "Proxy", "Promise",
  "PromiseResolveFunction", "PromiseRejectFunction", "AsyncFunction", "AsyncFunctionResolve",
  "AsyncFunctionReject", "AsyncGeneratorFunction", "AsyncGenerator", "EvalError", "RangeError",
  "ReferenceError", "SyntaxError", "TypeError", "URIError", "InternalError"]

def predefinedSymbols : List String := [
  "Symbol.toPrimitive", "Symbol.iterator", "Symbol.match", "Symbol.matchAll", "Symbol.replace",
  "Symbol.search", "Symbol.split", "Symbol.toStringTag", "Symbol.isConcatSpreadable",
  "Symbol.hasInstance", "Symbol.species", "Symbol.unscopables", "Symbol.asyncIterator"]

/-- The predefined names with their kinds; the first has handle one. -/
def predefined : List (String × AtomKind) :=
  predefinedStrings.map (·, .string) ++ ("<brand>", .privateBrand)
    :: predefinedSymbols.map (·, .symbol)

/-- The first handle that is not predefined. -/
def firstDynamic : Nat := 210

def isPredefined (a : Atom) : Bool :=
  a.id < firstDynamic

set_option maxRecDepth 4096 in
theorem length_predefined : predefined.length + 1 = firstDynamic := by decide

/-! ## Names that the compiler uses itself -/

def this : Atom := ⟨8⟩
def defaultName : Atom := ⟨22⟩
def functionName : Atom := ⟨27⟩
def emptyString : Atom := ⟨47⟩
def length : Atom := ⟨48⟩
def eval : Atom := ⟨58⟩
def value : Atom := ⟨64⟩
def proto : Atom := ⟨68⟩
def undefined : Atom := ⟨69⟩
def arguments : Atom := ⟨77⟩
def evalCode : Atom := ⟨80⟩
def completion : Atom := ⟨81⟩
def withObject : Atom := ⟨84⟩
def concat : Atom := ⟨92⟩
def done : Atom := ⟨105⟩
def newTarget : Atom := ⟨113⟩
def activeFunction : Atom := ⟨114⟩
def homeObject : Atom := ⟨115⟩
def fieldsInit : Atom := ⟨118⟩
def brand : Atom := ⟨119⟩
def privateConstructor : Atom := ⟨120⟩
def defaultBinding : Atom := ⟨124⟩
def star : Atom := ⟨125⟩

end ScriptBytecode.Atom

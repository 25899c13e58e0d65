import ScriptBytecode.Opcode.Format

/-!
# Opcodes

`Opcode` lists the instructions of finished code in the order of their byte values; those after `nop`
are short forms of others. `Pseudo` lists the placeholders that stand in code under construction:
variable accesses by name and scope, label and line markers. `Op` is either.
-/

namespace ScriptBytecode

inductive Opcode where
  -- constants and stack
  | invalid | pushI32 | pushConst | fclosure | pushAtomValue | privateSymbol | undefined | null
  | pushThis | pushFalse | pushTrue | object | specialObject | rest | drop | nip | nip1 | dup
  | dup1 | dup2 | dup3 | insert2 | insert3 | insert4 | perm3 | perm4 | perm5 | swap | swap2
  | rot3l | rot3r | rot4l | rot5l
  -- calls and returns
  | callConstructor | call | tailCall | callMethod | tailCallMethod | arrayFrom | apply
  | returnValue | returnUndef | checkCtorReturn | checkCtor | checkBrand | addBrand | returnAsync
  | throw | raiseError | eval | applyEval | regexp | getSuper | dynamicImport
  -- global variables
  | checkVar | getVarUndef | getVar | putVar | putVarInit | putVarStrict | getRefValue
  | putRefValue | defineVar | checkDefineVar | defineFunc
  -- properties
  | getField | getField2 | putField | getPrivateField | putPrivateField | definePrivateField
  | getArrayEl | getArrayEl2 | putArrayEl | getSuperValue | putSuperValue | defineField | setName
  | setNameComputed | setProto | setHomeObject | defineArrayEl | append | copyDataProperties
  | defineMethod | defineMethodComputed | defineClass | defineClassComputed
  -- locals, arguments and closure variables
  | getLoc | putLoc | setLoc | getArg | putArg | setArg | getVarRef | putVarRef | setVarRef
  | setLocUninitialized | getLocCheck | putLocCheck | putLocCheckInit | getVarRefCheck
  | putVarRefCheck | putVarRefCheckInit | closeLoc
  -- control flow
  | ifFalse | ifTrue | goto | catchTo | gosub | ret | nipCatch | toObject | toPropkey | toPropkey2
  -- with statement
  | withGetVar | withPutVar | withDeleteVar | withMakeRef | withGetRef | withGetRefUndef
  | makeLocRef | makeArgRef | makeVarRefRef | makeVarRef
  -- iteration
  | forInStart | forOfStart | forAwaitOfStart | forInNext | forOfNext | iteratorCheckObject
  | iteratorGetValueDone | iteratorClose | iteratorNext | iteratorCall | initialYield | yield
  | yieldStar | asyncYieldStar | await
  -- arithmetic and logic
  | neg | plus | dec | inc | postDec | postInc | decLoc | incLoc | addLoc | bitNot | lnot | typeof
  | delete | deleteVar | mul | div | mod | add | sub | pow | shl | sar | shr | lt | lte | gt | gte
  | instanceof | inOp | eq | neq | strictEq | strictNeq | bitAnd | bitXor | bitOr
  | isUndefinedOrNull | privateIn | nop
  -- short opcodes
  | pushMinus1 | push0 | push1 | push2 | push3 | push4 | push5 | push6 | push7 | pushI8 | pushI16
  | pushConst8 | fclosure8 | pushEmptyString | getLoc8 | putLoc8 | setLoc8 | getLoc0 | getLoc1
  | getLoc2 | getLoc3 | putLoc0 | putLoc1 | putLoc2 | putLoc3 | setLoc0 | setLoc1 | setLoc2
  | setLoc3 | getArg0 | getArg1 | getArg2 | getArg3 | putArg0 | putArg1 | putArg2 | putArg3
  | setArg0 | setArg1 | setArg2 | setArg3 | getVarRef0 | getVarRef1 | getVarRef2 | getVarRef3
  | putVarRef0 | putVarRef1 | putVarRef2 | putVarRef3 | setVarRef0 | setVarRef1 | setVarRef2
  | setVarRef3 | getLength | ifFalse8 | ifTrue8 | goto8 | goto16 | call0 | call1 | call2 | call3
  | isUndefined | isNull | typeofIsUndefined | typeofIsFunction
deriving DecidableEq, Inhabited

inductive Pseudo where
  | enterScope | leaveScope | label | getVarUndef | getVar | putVar | deleteVar | makeRef | getRef
  | putVarInit | getThis | getPrivate | getPrivateKeep | putPrivate | hasPrivate | chainField
  | chainElement | optionalLink | lineNum
deriving DecidableEq, Inhabited

/-- An opcode's name in listings, how many values it takes from the stack and puts on it, and how its
operand is laid out. -/
structure OpcodeInfo where
  name : String
  pops : Nat
  pushes : Nat
  format : Format

def Opcode.info : Opcode → OpcodeInfo
  | invalid => ⟨"invalid", 0, 0, .none⟩
  | pushI32 => ⟨"push_i32", 0, 1, .i32⟩
  | pushConst => ⟨"push_const", 0, 1, .const⟩
  | fclosure => ⟨"fclosure", 0, 1, .const⟩
  | pushAtomValue => ⟨"push_atom_value", 0, 1, .atom⟩
  | privateSymbol => ⟨"private_symbol", 0, 1, .atom⟩
  | undefined => ⟨"undefined", 0, 1, .none⟩
  | null => ⟨"null", 0, 1, .none⟩
  | pushThis => ⟨"push_this", 0, 1, .none⟩
  | pushFalse => ⟨"push_false", 0, 1, .none⟩
  | pushTrue => ⟨"push_true", 0, 1, .none⟩
  | object => ⟨"object", 0, 1, .none⟩
  | specialObject => ⟨"special_object", 0, 1, .u8⟩
  | rest => ⟨"rest", 0, 1, .u16⟩
  | drop => ⟨"drop", 1, 0, .none⟩
  | nip => ⟨"nip", 2, 1, .none⟩
  | nip1 => ⟨"nip1", 3, 2, .none⟩
  | dup => ⟨"dup", 1, 2, .none⟩
  | dup1 => ⟨"dup1", 2, 3, .none⟩
  | dup2 => ⟨"dup2", 2, 4, .none⟩
  | dup3 => ⟨"dup3", 3, 6, .none⟩
  | insert2 => ⟨"insert2", 2, 3, .none⟩
  | insert3 => ⟨"insert3", 3, 4, .none⟩
  | insert4 => ⟨"insert4", 4, 5, .none⟩
  | perm3 => ⟨"perm3", 3, 3, .none⟩
  | perm4 => ⟨"perm4", 4, 4, .none⟩
  | perm5 => ⟨"perm5", 5, 5, .none⟩
  | swap => ⟨"swap", 2, 2, .none⟩
  | swap2 => ⟨"swap2", 4, 4, .none⟩
  | rot3l => ⟨"rot3l", 3, 3, .none⟩
  | rot3r => ⟨"rot3r", 3, 3, .none⟩
  | rot4l => ⟨"rot4l", 4, 4, .none⟩
  | rot5l => ⟨"rot5l", 5, 5, .none⟩
  | callConstructor => ⟨"call_constructor", 2, 1, .count⟩
  | call => ⟨"call", 1, 1, .count⟩
  | tailCall => ⟨"tail_call", 1, 0, .count⟩
  | callMethod => ⟨"call_method", 2, 1, .count⟩
  | tailCallMethod => ⟨"tail_call_method", 2, 0, .count⟩
  | arrayFrom => ⟨"array_from", 0, 1, .count⟩
  | apply => ⟨"apply", 3, 1, .u16⟩
  | returnValue => ⟨"return", 1, 0, .none⟩
  | returnUndef => ⟨"return_undef", 0, 0, .none⟩
  | checkCtorReturn => ⟨"check_ctor_return", 1, 2, .none⟩
  | checkCtor => ⟨"check_ctor", 0, 0, .none⟩
  | checkBrand => ⟨"check_brand", 2, 2, .none⟩
  | addBrand => ⟨"add_brand", 2, 0, .none⟩
  | returnAsync => ⟨"return_async", 1, 0, .none⟩
  | throw => ⟨"throw", 1, 0, .none⟩
  | raiseError => ⟨"throw_error", 0, 0, .atomU8⟩
  | eval => ⟨"eval", 1, 1, .countU16⟩
  | applyEval => ⟨"apply_eval", 2, 1, .u16⟩
  | regexp => ⟨"regexp", 2, 1, .none⟩
  | getSuper => ⟨"get_super", 1, 1, .none⟩
  | dynamicImport => ⟨"import", 1, 1, .none⟩
  | checkVar => ⟨"check_var", 0, 1, .atom⟩
  | getVarUndef => ⟨"get_var_undef", 0, 1, .atom⟩
  | getVar => ⟨"get_var", 0, 1, .atom⟩
  | putVar => ⟨"put_var", 1, 0, .atom⟩
  | putVarInit => ⟨"put_var_init", 1, 0, .atom⟩
  | putVarStrict => ⟨"put_var_strict", 2, 0, .atom⟩
  | getRefValue => ⟨"get_ref_value", 2, 3, .none⟩
  | putRefValue => ⟨"put_ref_value", 3, 0, .none⟩
  | defineVar => ⟨"define_var", 0, 0, .atomU8⟩
  | checkDefineVar => ⟨"check_define_var", 0, 0, .atomU8⟩
  | defineFunc => ⟨"define_func", 1, 0, .atomU8⟩
  | getField => ⟨"get_field", 1, 1, .atom⟩
  | getField2 => ⟨"get_field2", 1, 2, .atom⟩
  | putField => ⟨"put_field", 2, 0, .atom⟩
  | getPrivateField => ⟨"get_private_field", 2, 1, .none⟩
  | putPrivateField => ⟨"put_private_field", 3, 0, .none⟩
  | definePrivateField => ⟨"define_private_field", 3, 1, .none⟩
  | getArrayEl => ⟨"get_array_el", 2, 1, .none⟩
  | getArrayEl2 => ⟨"get_array_el2", 2, 2, .none⟩
  | putArrayEl => ⟨"put_array_el", 3, 0, .none⟩
  | getSuperValue => ⟨"get_super_value", 3, 1, .none⟩
  | putSuperValue => ⟨"put_super_value", 4, 0, .none⟩
  | defineField => ⟨"define_field", 2, 1, .atom⟩
  | setName => ⟨"set_name", 1, 1, .atom⟩
  | setNameComputed => ⟨"set_name_computed", 2, 2, .none⟩
  | setProto => ⟨"set_proto", 2, 1, .none⟩
  | setHomeObject => ⟨"set_home_object", 2, 2, .none⟩
  | defineArrayEl => ⟨"define_array_el", 3, 2, .none⟩
  | append => ⟨"append", 3, 2, .none⟩
  | copyDataProperties => ⟨"copy_data_properties", 3, 3, .u8⟩
  | defineMethod => ⟨"define_method", 2, 1, .atomU8⟩
  | defineMethodComputed => ⟨"define_method_computed", 3, 1, .u8⟩
  | defineClass => ⟨"define_class", 2, 2, .atomU8⟩
  | defineClassComputed => ⟨"define_class_computed", 3, 3, .atomU8⟩
  | getLoc => ⟨"get_loc", 0, 1, .loc⟩
  | putLoc => ⟨"put_loc", 1, 0, .loc⟩
  | setLoc => ⟨"set_loc", 1, 1, .loc⟩
  | getArg => ⟨"get_arg", 0, 1, .arg⟩
  | putArg => ⟨"put_arg", 1, 0, .arg⟩
  | setArg => ⟨"set_arg", 1, 1, .arg⟩
  | getVarRef => ⟨"get_var_ref", 0, 1, .varRef⟩
  | putVarRef => ⟨"put_var_ref", 1, 0, .varRef⟩
  | setVarRef => ⟨"set_var_ref", 1, 1, .varRef⟩
  | setLocUninitialized => ⟨"set_loc_uninitialized", 0, 0, .loc⟩
  | getLocCheck => ⟨"get_loc_check", 0, 1, .loc⟩
  | putLocCheck => ⟨"put_loc_check", 1, 0, .loc⟩
  | putLocCheckInit => ⟨"put_loc_check_init", 1, 0, .loc⟩
  | getVarRefCheck => ⟨"get_var_ref_check", 0, 1, .varRef⟩
  | putVarRefCheck => ⟨"put_var_ref_check", 1, 0, .varRef⟩
  | putVarRefCheckInit => ⟨"put_var_ref_check_init", 1, 0, .varRef⟩
  | closeLoc => ⟨"close_loc", 0, 0, .loc⟩
  | ifFalse => ⟨"if_false", 1, 0, .label⟩
  | ifTrue => ⟨"if_true", 1, 0, .label⟩
  | goto => ⟨"goto", 0, 0, .label⟩
  | catchTo => ⟨"catch", 0, 1, .label⟩
  | gosub => ⟨"gosub", 0, 0, .label⟩
  | ret => ⟨"ret", 1, 0, .none⟩
  | nipCatch => ⟨"nip_catch", 2, 1, .none⟩
  | toObject => ⟨"to_object", 1, 1, .none⟩
  | toPropkey => ⟨"to_propkey", 1, 1, .none⟩
  | toPropkey2 => ⟨"to_propkey2", 2, 2, .none⟩
  | withGetVar => ⟨"with_get_var", 1, 0, .atomLabelU8⟩
  | withPutVar => ⟨"with_put_var", 2, 1, .atomLabelU8⟩
  | withDeleteVar => ⟨"with_delete_var", 1, 0, .atomLabelU8⟩
  | withMakeRef => ⟨"with_make_ref", 1, 0, .atomLabelU8⟩
  | withGetRef => ⟨"with_get_ref", 1, 0, .atomLabelU8⟩
  | withGetRefUndef => ⟨"with_get_ref_undef", 1, 0, .atomLabelU8⟩
  | makeLocRef => ⟨"make_loc_ref", 0, 2, .atomU16⟩
  | makeArgRef => ⟨"make_arg_ref", 0, 2, .atomU16⟩
  | makeVarRefRef => ⟨"make_var_ref_ref", 0, 2, .atomU16⟩
  | makeVarRef => ⟨"make_var_ref", 0, 2, .atom⟩
  | forInStart => ⟨"for_in_start", 1, 1, .none⟩
  | forOfStart => ⟨"for_of_start", 1, 3, .none⟩
  | forAwaitOfStart => ⟨"for_await_of_start", 1, 3, .none⟩
  | forInNext => ⟨"for_in_next", 1, 3, .none⟩
  | forOfNext => ⟨"for_of_next", 3, 5, .u8⟩
  | iteratorCheckObject => ⟨"iterator_check_object", 1, 1, .none⟩
  | iteratorGetValueDone => ⟨"iterator_get_value_done", 1, 2, .none⟩
  | iteratorClose => ⟨"iterator_close", 3, 0, .none⟩
  | iteratorNext => ⟨"iterator_next", 4, 4, .none⟩
  | iteratorCall => ⟨"iterator_call", 4, 5, .u8⟩
  | initialYield => ⟨"initial_yield", 0, 0, .none⟩
  | yield => ⟨"yield", 1, 2, .none⟩
  | yieldStar => ⟨"yield_star", 1, 2, .none⟩
  | asyncYieldStar => ⟨"async_yield_star", 1, 2, .none⟩
  | await => ⟨"await", 1, 1, .none⟩
  | neg => ⟨"neg", 1, 1, .none⟩
  | plus => ⟨"plus", 1, 1, .none⟩
  | dec => ⟨"dec", 1, 1, .none⟩
  | inc => ⟨"inc", 1, 1, .none⟩
  | postDec => ⟨"post_dec", 1, 2, .none⟩
  | postInc => ⟨"post_inc", 1, 2, .none⟩
  | decLoc => ⟨"dec_loc", 0, 0, .loc8⟩
  | incLoc => ⟨"inc_loc", 0, 0, .loc8⟩
  | addLoc => ⟨"add_loc", 1, 0, .loc8⟩
  | bitNot => ⟨"not", 1, 1, .none⟩
  | lnot => ⟨"lnot", 1, 1, .none⟩
  | typeof => ⟨"typeof", 1, 1, .none⟩
  | delete => ⟨"delete", 2, 1, .none⟩
  | deleteVar => ⟨"delete_var", 0, 1, .atom⟩
  | mul => ⟨"mul", 2, 1, .none⟩
  | div => ⟨"div", 2, 1, .none⟩
  | mod => ⟨"mod", 2, 1, .none⟩
  | add => ⟨"add", 2, 1, .none⟩
  | sub => ⟨"sub", 2, 1, .none⟩
  | pow => ⟨"pow", 2, 1, .none⟩
  | shl => ⟨"shl", 2, 1, .none⟩
  | sar => ⟨"sar", 2, 1, .none⟩
  | shr => ⟨"shr", 2, 1, .none⟩
  | lt => ⟨"lt", 2, 1, .none⟩
  | lte => ⟨"lte", 2, 1, .none⟩
  | gt => ⟨"gt", 2, 1, .none⟩
  | gte => ⟨"gte", 2, 1, .none⟩
  | instanceof => ⟨"instanceof", 2, 1, .none⟩
  | inOp => ⟨"in", 2, 1, .none⟩
  | eq => ⟨"eq", 2, 1, .none⟩
  | neq => ⟨"neq", 2, 1, .none⟩
  | strictEq => ⟨"strict_eq", 2, 1, .none⟩
  | strictNeq => ⟨"strict_neq", 2, 1, .none⟩
  | bitAnd => ⟨"and", 2, 1, .none⟩
  | bitXor => ⟨"xor", 2, 1, .none⟩
  | bitOr => ⟨"or", 2, 1, .none⟩
  | isUndefinedOrNull => ⟨"is_undefined_or_null", 1, 1, .none⟩
  | privateIn => ⟨"private_in", 2, 1, .none⟩
  | nop => ⟨"nop", 0, 0, .none⟩
  | pushMinus1 => ⟨"push_minus1", 0, 1, .impliedInt⟩
  | push0 => ⟨"push_0", 0, 1, .impliedInt⟩
  | push1 => ⟨"push_1", 0, 1, .impliedInt⟩
  | push2 => ⟨"push_2", 0, 1, .impliedInt⟩
  | push3 => ⟨"push_3", 0, 1, .impliedInt⟩
  | push4 => ⟨"push_4", 0, 1, .impliedInt⟩
  | push5 => ⟨"push_5", 0, 1, .impliedInt⟩
  | push6 => ⟨"push_6", 0, 1, .impliedInt⟩
  | push7 => ⟨"push_7", 0, 1, .impliedInt⟩
  | pushI8 => ⟨"push_i8", 0, 1, .i8⟩
  | pushI16 => ⟨"push_i16", 0, 1, .i16⟩
  | pushConst8 => ⟨"push_const8", 0, 1, .const8⟩
  | fclosure8 => ⟨"fclosure8", 0, 1, .const8⟩
  | pushEmptyString => ⟨"push_empty_string", 0, 1, .none⟩
  | getLoc8 => ⟨"get_loc8", 0, 1, .loc8⟩
  | putLoc8 => ⟨"put_loc8", 1, 0, .loc8⟩
  | setLoc8 => ⟨"set_loc8", 1, 1, .loc8⟩
  | getLoc0 => ⟨"get_loc0", 0, 1, .impliedLoc⟩
  | getLoc1 => ⟨"get_loc1", 0, 1, .impliedLoc⟩
  | getLoc2 => ⟨"get_loc2", 0, 1, .impliedLoc⟩
  | getLoc3 => ⟨"get_loc3", 0, 1, .impliedLoc⟩
  | putLoc0 => ⟨"put_loc0", 1, 0, .impliedLoc⟩
  | putLoc1 => ⟨"put_loc1", 1, 0, .impliedLoc⟩
  | putLoc2 => ⟨"put_loc2", 1, 0, .impliedLoc⟩
  | putLoc3 => ⟨"put_loc3", 1, 0, .impliedLoc⟩
  | setLoc0 => ⟨"set_loc0", 1, 1, .impliedLoc⟩
  | setLoc1 => ⟨"set_loc1", 1, 1, .impliedLoc⟩
  | setLoc2 => ⟨"set_loc2", 1, 1, .impliedLoc⟩
  | setLoc3 => ⟨"set_loc3", 1, 1, .impliedLoc⟩
  | getArg0 => ⟨"get_arg0", 0, 1, .impliedArg⟩
  | getArg1 => ⟨"get_arg1", 0, 1, .impliedArg⟩
  | getArg2 => ⟨"get_arg2", 0, 1, .impliedArg⟩
  | getArg3 => ⟨"get_arg3", 0, 1, .impliedArg⟩
  | putArg0 => ⟨"put_arg0", 1, 0, .impliedArg⟩
  | putArg1 => ⟨"put_arg1", 1, 0, .impliedArg⟩
  | putArg2 => ⟨"put_arg2", 1, 0, .impliedArg⟩
  | putArg3 => ⟨"put_arg3", 1, 0, .impliedArg⟩
  | setArg0 => ⟨"set_arg0", 1, 1, .impliedArg⟩
  | setArg1 => ⟨"set_arg1", 1, 1, .impliedArg⟩
  | setArg2 => ⟨"set_arg2", 1, 1, .impliedArg⟩
  | setArg3 => ⟨"set_arg3", 1, 1, .impliedArg⟩
  | getVarRef0 => ⟨"get_var_ref0", 0, 1, .impliedVarRef⟩
  | getVarRef1 => ⟨"get_var_ref1", 0, 1, .impliedVarRef⟩
  | getVarRef2 => ⟨"get_var_ref2", 0, 1, .impliedVarRef⟩
  | getVarRef3 => ⟨"get_var_ref3", 0, 1, .impliedVarRef⟩
  | putVarRef0 => ⟨"put_var_ref0", 1, 0, .impliedVarRef⟩
  | putVarRef1 => ⟨"put_var_ref1", 1, 0, .impliedVarRef⟩
  | putVarRef2 => ⟨"put_var_ref2", 1, 0, .impliedVarRef⟩
  | putVarRef3 => ⟨"put_var_ref3", 1, 0, .impliedVarRef⟩
  | setVarRef0 => ⟨"set_var_ref0", 1, 1, .impliedVarRef⟩
  | setVarRef1 => ⟨"set_var_ref1", 1, 1, .impliedVarRef⟩
  | setVarRef2 => ⟨"set_var_ref2", 1, 1, .impliedVarRef⟩
  | setVarRef3 => ⟨"set_var_ref3", 1, 1, .impliedVarRef⟩
  | getLength => ⟨"get_length", 1, 1, .none⟩
  | ifFalse8 => ⟨"if_false8", 1, 0, .label8⟩
  | ifTrue8 => ⟨"if_true8", 1, 0, .label8⟩
  | goto8 => ⟨"goto8", 0, 0, .label8⟩
  | goto16 => ⟨"goto16", 0, 0, .label16⟩
  | call0 => ⟨"call0", 1, 1, .impliedCount⟩
  | call1 => ⟨"call1", 1, 1, .impliedCount⟩
  | call2 => ⟨"call2", 1, 1, .impliedCount⟩
  | call3 => ⟨"call3", 1, 1, .impliedCount⟩
  | isUndefined => ⟨"is_undefined", 1, 1, .none⟩
  | isNull => ⟨"is_null", 1, 1, .none⟩
  | typeofIsUndefined => ⟨"typeof_is_undefined", 1, 1, .none⟩
  | typeofIsFunction => ⟨"typeof_is_function", 1, 1, .none⟩

def Pseudo.info : Pseudo → OpcodeInfo
  | enterScope => ⟨"enter_scope", 0, 0, .u16⟩
  | leaveScope => ⟨"leave_scope", 0, 0, .u16⟩
  | label => ⟨"label", 0, 0, .label⟩
  | getVarUndef => ⟨"scope_get_var_undef", 0, 1, .atomU16⟩
  | getVar => ⟨"scope_get_var", 0, 1, .atomU16⟩
  | putVar => ⟨"scope_put_var", 1, 0, .atomU16⟩
  | deleteVar => ⟨"scope_delete_var", 0, 1, .atomU16⟩
  | makeRef => ⟨"scope_make_ref", 0, 2, .atomLabelU16⟩
  | getRef => ⟨"scope_get_ref", 0, 2, .atomU16⟩
  | putVarInit => ⟨"scope_put_var_init", 1, 0, .atomU16⟩
  | getThis => ⟨"scope_get_var_checkthis", 0, 1, .atomU16⟩
  | getPrivate => ⟨"scope_get_private_field", 1, 1, .atomU16⟩
  | getPrivateKeep => ⟨"scope_get_private_field2", 1, 2, .atomU16⟩
  | putPrivate => ⟨"scope_put_private_field", 2, 0, .atomU16⟩
  | hasPrivate => ⟨"scope_in_private_field", 1, 1, .atomU16⟩
  | chainField => ⟨"get_field_opt_chain", 1, 1, .atom⟩
  | chainElement => ⟨"get_array_el_opt_chain", 2, 1, .none⟩
  | optionalLink => ⟨"optional_chain", 1, 1, .label⟩
  | lineNum => ⟨"line_num", 0, 0, .u32⟩

namespace Opcode

def count : Nat := 245

def name (op : Opcode) : String :=
  op.info.name

def format (op : Opcode) : Format :=
  op.info.format

/-- The encoded size, operand included. -/
def size (op : Opcode) : Nat :=
  1 + op.format.operandSize

def byte (op : Opcode) : Nat :=
  op.ctorIdx

def ofByte? (n : Nat) : Option Opcode :=
  if n < count then some (Opcode.ofNat n) else none

def all : List Opcode :=
  (List.range count).map Opcode.ofNat

def ofName? (s : String) : Option Opcode :=
  all.find? (·.name == s)

/-- The opcode `k` places further in the list. -/
def plus? (op : Opcode) (k : Nat) : Option Opcode :=
  ofByte? (op.byte + k)

def isShort (op : Opcode) : Bool :=
  nop.byte < op.byte

/-- Does the operand hold a jump target? -/
def isJump (op : Opcode) : Bool :=
  op.format.hasLabel

/-- Does control never pass on to the next instruction? -/
def isTerminator : Opcode → Bool
  | goto | goto8 | goto16 | returnValue | returnUndef | returnAsync | throw | raiseError | ret
  | tailCall | tailCallMethod => true
  | _ => false

/-- The opcode that an opcode is a short form of, with the number it implies; opcodes that are not short
forms stand for themselves. -/
def longForm (op : Opcode) : Opcode × Option Int :=
  let implied (long first : Opcode) : Opcode × Option Int := (long, some (op.byte - first.byte : Int))
  match op with
  | pushMinus1 => (pushI32, some (-1))
  | push0 | push1 | push2 | push3 | push4 | push5 | push6 | push7 => implied pushI32 push0
  | pushI8 | pushI16 => (pushI32, none)
  | pushConst8 => (pushConst, none)
  | fclosure8 => (fclosure, none)
  | pushEmptyString => (pushAtomValue, none)
  | getLoc8 => (getLoc, none)
  | putLoc8 => (putLoc, none)
  | setLoc8 => (setLoc, none)
  | getLoc0 | getLoc1 | getLoc2 | getLoc3 => implied getLoc getLoc0
  | putLoc0 | putLoc1 | putLoc2 | putLoc3 => implied putLoc putLoc0
  | setLoc0 | setLoc1 | setLoc2 | setLoc3 => implied setLoc setLoc0
  | getArg0 | getArg1 | getArg2 | getArg3 => implied getArg getArg0
  | putArg0 | putArg1 | putArg2 | putArg3 => implied putArg putArg0
  | setArg0 | setArg1 | setArg2 | setArg3 => implied setArg setArg0
  | getVarRef0 | getVarRef1 | getVarRef2 | getVarRef3 => implied getVarRef getVarRef0
  | putVarRef0 | putVarRef1 | putVarRef2 | putVarRef3 => implied putVarRef putVarRef0
  | setVarRef0 | setVarRef1 | setVarRef2 | setVarRef3 => implied setVarRef setVarRef0
  | getLength => (getField, none)
  | ifFalse8 => (ifFalse, none)
  | ifTrue8 => (ifTrue, none)
  | goto8 | goto16 => (goto, none)
  | call0 | call1 | call2 | call3 => implied call call0
  | other => (other, none)

end Opcode

namespace Pseudo

def count : Nat := 19

def name (op : Pseudo) : String :=
  op.info.name

def format (op : Pseudo) : Format :=
  op.info.format

def size (op : Pseudo) : Nat :=
  1 + op.format.operandSize

/-- Pseudo-opcodes take the bytes of the short forms, which do not occur beside them. -/
def firstByte : Nat :=
  Opcode.nop.byte + 1

def byte (op : Pseudo) : Nat :=
  firstByte + op.ctorIdx

def ofByte? (n : Nat) : Option Pseudo :=
  if firstByte ≤ n && n < firstByte + count then some (Pseudo.ofNat (n - firstByte)) else none

def all : List Pseudo :=
  (List.range count).map Pseudo.ofNat

def ofName? (s : String) : Option Pseudo :=
  all.find? (·.name == s)

end Pseudo

/-- An opcode of code under construction. -/
inductive Op where
  | final (op : Opcode)
  | pseudo (op : Pseudo)
deriving DecidableEq, Inhabited

namespace Op

def info : Op → OpcodeInfo
  | final op => op.info
  | pseudo op => op.info

def name (op : Op) : String :=
  op.info.name

def format (op : Op) : Format :=
  op.info.format

def byte : Op → Nat
  | final op => op.byte
  | pseudo op => op.byte

/-- The opcode of a byte in finished code. -/
def ofFinalByte? (n : Nat) : Option Op :=
  (Opcode.ofByte? n).map final

/-- The opcode of a byte in code under construction, where no short form occurs. -/
def ofRawByte? (n : Nat) : Option Op :=
  if n < Pseudo.firstByte then ofFinalByte? n else (Pseudo.ofByte? n).map pseudo

/-- A finished opcode of that name if there is one, else a pseudo-opcode. -/
def ofName? (s : String) : Option Op :=
  match Opcode.ofName? s with
  | some op => some (final op)
  | none => (Pseudo.ofName? s).map pseudo

end Op

end ScriptBytecode

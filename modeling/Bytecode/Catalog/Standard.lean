import Bytecode.Catalog

/-!
# The instructions of the virtual machine

The opcodes 0 to 201, and the three reserved for debuggers and implementations.
-/

namespace Bytecode.Catalog

/-- Every instruction that a code array can hold. -/
def standard : Catalog where
  entries :=
    [⟨0, "nop", .none, false⟩,
      ⟨1, "aconst_null", .none, false⟩,
      ⟨2, "iconst_m1", .none, false⟩,
      ⟨3, "iconst_0", .none, false⟩,
      ⟨4, "iconst_1", .none, false⟩,
      ⟨5, "iconst_2", .none, false⟩,
      ⟨6, "iconst_3", .none, false⟩,
      ⟨7, "iconst_4", .none, false⟩,
      ⟨8, "iconst_5", .none, false⟩,
      ⟨9, "lconst_0", .none, false⟩,
      ⟨10, "lconst_1", .none, false⟩,
      ⟨11, "fconst_0", .none, false⟩,
      ⟨12, "fconst_1", .none, false⟩,
      ⟨13, "fconst_2", .none, false⟩,
      ⟨14, "dconst_0", .none, false⟩,
      ⟨15, "dconst_1", .none, false⟩,
      ⟨16, "bipush", .u8, false⟩,
      ⟨17, "sipush", .u16, false⟩,
      ⟨18, "ldc", .constantPoolU8, false⟩,
      ⟨19, "ldc_w", .constantPoolU16, false⟩,
      ⟨20, "ldc2_w", .constantPoolU16, false⟩,
      ⟨21, "iload", .u8, false⟩,
      ⟨22, "lload", .u8, false⟩,
      ⟨23, "fload", .u8, false⟩,
      ⟨24, "dload", .u8, false⟩,
      ⟨25, "aload", .u8, false⟩,
      ⟨26, "iload_0", .none, false⟩,
      ⟨27, "iload_1", .none, false⟩,
      ⟨28, "iload_2", .none, false⟩,
      ⟨29, "iload_3", .none, false⟩,
      ⟨30, "lload_0", .none, false⟩,
      ⟨31, "lload_1", .none, false⟩,
      ⟨32, "lload_2", .none, false⟩,
      ⟨33, "lload_3", .none, false⟩,
      ⟨34, "fload_0", .none, false⟩,
      ⟨35, "fload_1", .none, false⟩,
      ⟨36, "fload_2", .none, false⟩,
      ⟨37, "fload_3", .none, false⟩,
      ⟨38, "dload_0", .none, false⟩,
      ⟨39, "dload_1", .none, false⟩,
      ⟨40, "dload_2", .none, false⟩,
      ⟨41, "dload_3", .none, false⟩,
      ⟨42, "aload_0", .none, false⟩,
      ⟨43, "aload_1", .none, false⟩,
      ⟨44, "aload_2", .none, false⟩,
      ⟨45, "aload_3", .none, false⟩,
      ⟨46, "iaload", .none, false⟩,
      ⟨47, "laload", .none, false⟩,
      ⟨48, "faload", .none, false⟩,
      ⟨49, "daload", .none, false⟩,
      ⟨50, "aaload", .none, false⟩,
      ⟨51, "baload", .none, false⟩,
      ⟨52, "caload", .none, false⟩,
      ⟨53, "saload", .none, false⟩,
      ⟨54, "istore", .u8, false⟩,
      ⟨55, "lstore", .u8, false⟩,
      ⟨56, "fstore", .u8, false⟩,
      ⟨57, "dstore", .u8, false⟩,
      ⟨58, "astore", .u8, false⟩,
      ⟨59, "istore_0", .none, false⟩,
      ⟨60, "istore_1", .none, false⟩,
      ⟨61, "istore_2", .none, false⟩,
      ⟨62, "istore_3", .none, false⟩,
      ⟨63, "lstore_0", .none, false⟩,
      ⟨64, "lstore_1", .none, false⟩,
      ⟨65, "lstore_2", .none, false⟩,
      ⟨66, "lstore_3", .none, false⟩,
      ⟨67, "fstore_0", .none, false⟩,
      ⟨68, "fstore_1", .none, false⟩,
      ⟨69, "fstore_2", .none, false⟩,
      ⟨70, "fstore_3", .none, false⟩,
      ⟨71, "dstore_0", .none, false⟩,
      ⟨72, "dstore_1", .none, false⟩,
      ⟨73, "dstore_2", .none, false⟩,
      ⟨74, "dstore_3", .none, false⟩,
      ⟨75, "astore_0", .none, false⟩,
      ⟨76, "astore_1", .none, false⟩,
      ⟨77, "astore_2", .none, false⟩,
      ⟨78, "astore_3", .none, false⟩,
      ⟨79, "iastore", .none, false⟩,
      ⟨80, "lastore", .none, false⟩,
      ⟨81, "fastore", .none, false⟩,
      ⟨82, "dastore", .none, false⟩,
      ⟨83, "aastore", .none, false⟩,
      ⟨84, "bastore", .none, false⟩,
      ⟨85, "castore", .none, false⟩,
      ⟨86, "sastore", .none, false⟩,
      ⟨87, "pop", .none, false⟩,
      ⟨88, "pop2", .none, false⟩,
      ⟨89, "dup", .none, false⟩,
      ⟨90, "dup_x1", .none, false⟩,
      ⟨91, "dup_x2", .none, false⟩,
      ⟨92, "dup2", .none, false⟩,
      ⟨93, "dup2_x1", .none, false⟩,
      ⟨94, "dup2_x2", .none, false⟩,
      ⟨95, "swap", .none, false⟩,
      ⟨96, "iadd", .none, false⟩,
      ⟨97, "ladd", .none, false⟩,
      ⟨98, "fadd", .none, false⟩,
      ⟨99, "dadd", .none, false⟩,
      ⟨100, "isub", .none, false⟩,
      ⟨101, "lsub", .none, false⟩,
      ⟨102, "fsub", .none, false⟩,
      ⟨103, "dsub", .none, false⟩,
      ⟨104, "imul", .none, false⟩,
      ⟨105, "lmul", .none, false⟩,
      ⟨106, "fmul", .none, false⟩,
      ⟨107, "dmul", .none, false⟩,
      ⟨108, "idiv", .none, false⟩,
      ⟨109, "ldiv", .none, false⟩,
      ⟨110, "fdiv", .none, false⟩,
      ⟨111, "ddiv", .none, false⟩,
      ⟨112, "irem", .none, false⟩,
      ⟨113, "lrem", .none, false⟩,
      ⟨114, "frem", .none, false⟩,
      ⟨115, "drem", .none, false⟩,
      ⟨116, "ineg", .none, false⟩,
      ⟨117, "lneg", .none, false⟩,
      ⟨118, "fneg", .none, false⟩,
      ⟨119, "dneg", .none, false⟩,
      ⟨120, "ishl", .none, false⟩,
      ⟨121, "lshl", .none, false⟩,
      ⟨122, "ishr", .none, false⟩,
      ⟨123, "lshr", .none, false⟩,
      ⟨124, "iushr", .none, false⟩,
      ⟨125, "lushr", .none, false⟩,
      ⟨126, "iand", .none, false⟩,
      ⟨127, "land", .none, false⟩,
      ⟨128, "ior", .none, false⟩,
      ⟨129, "lor", .none, false⟩,
      ⟨130, "ixor", .none, false⟩,
      ⟨131, "lxor", .none, false⟩,
      ⟨132, "iinc", .localIndexAndConst, false⟩,
      ⟨133, "i2l", .none, false⟩,
      ⟨134, "i2f", .none, false⟩,
      ⟨135, "i2d", .none, false⟩,
      ⟨136, "l2i", .none, false⟩,
      ⟨137, "l2f", .none, false⟩,
      ⟨138, "l2d", .none, false⟩,
      ⟨139, "f2i", .none, false⟩,
      ⟨140, "f2l", .none, false⟩,
      ⟨141, "f2d", .none, false⟩,
      ⟨142, "d2i", .none, false⟩,
      ⟨143, "d2l", .none, false⟩,
      ⟨144, "d2f", .none, false⟩,
      ⟨145, "i2b", .none, false⟩,
      ⟨146, "i2c", .none, false⟩,
      ⟨147, "i2s", .none, false⟩,
      ⟨148, "lcmp", .none, false⟩,
      ⟨149, "fcmpl", .none, false⟩,
      ⟨150, "fcmpg", .none, false⟩,
      ⟨151, "dcmpl", .none, false⟩,
      ⟨152, "dcmpg", .none, false⟩,
      ⟨153, "ifeq", .s16, false⟩,
      ⟨154, "ifne", .s16, false⟩,
      ⟨155, "iflt", .s16, false⟩,
      ⟨156, "ifge", .s16, false⟩,
      ⟨157, "ifgt", .s16, false⟩,
      ⟨158, "ifle", .s16, false⟩,
      ⟨159, "if_icmpeq", .s16, false⟩,
      ⟨160, "if_icmpne", .s16, false⟩,
      ⟨161, "if_icmplt", .s16, false⟩,
      ⟨162, "if_icmpge", .s16, false⟩,
      ⟨163, "if_icmpgt", .s16, false⟩,
      ⟨164, "if_icmple", .s16, false⟩,
      ⟨165, "if_acmpeq", .s16, false⟩,
      ⟨166, "if_acmpne", .s16, false⟩,
      ⟨167, "goto", .s16, false⟩,
      ⟨168, "jsr", .s16, false⟩,
      ⟨169, "ret", .u8, false⟩,
      ⟨170, "tableswitch", .tableSwitch, false⟩,
      ⟨171, "lookupswitch", .lookupSwitch, false⟩,
      ⟨172, "ireturn", .none, false⟩,
      ⟨173, "lreturn", .none, false⟩,
      ⟨174, "freturn", .none, false⟩,
      ⟨175, "dreturn", .none, false⟩,
      ⟨176, "areturn", .none, false⟩,
      ⟨177, "return", .none, false⟩,
      ⟨178, "getstatic", .constantPoolU16, false⟩,
      ⟨179, "putstatic", .constantPoolU16, false⟩,
      ⟨180, "getfield", .constantPoolU16, false⟩,
      ⟨181, "putfield", .constantPoolU16, false⟩,
      ⟨182, "invokevirtual", .constantPoolU16, false⟩,
      ⟨183, "invokespecial", .constantPoolU16, false⟩,
      ⟨184, "invokestatic", .constantPoolU16, false⟩,
      ⟨185, "invokeinterface", .invokeInterface, false⟩,
      ⟨186, "invokedynamic", .invokeDynamic, false⟩,
      ⟨187, "new", .constantPoolU16, false⟩,
      ⟨188, "newarray", .newArrayPrimitive, false⟩,
      ⟨189, "anewarray", .constantPoolU16, false⟩,
      ⟨190, "arraylength", .none, false⟩,
      ⟨191, "athrow", .none, false⟩,
      ⟨192, "checkcast", .constantPoolU16, false⟩,
      ⟨193, "instanceof", .constantPoolU16, false⟩,
      ⟨194, "monitorenter", .none, false⟩,
      ⟨195, "monitorexit", .none, false⟩,
      ⟨196, "wide", .widePrefixed, false⟩,
      ⟨197, "multianewarray", .multiArray, false⟩,
      ⟨198, "ifnull", .s16, false⟩,
      ⟨199, "ifnonnull", .s16, false⟩,
      ⟨200, "goto_w", .s32, false⟩,
      ⟨201, "jsr_w", .s32, false⟩,
      ⟨202, "breakpoint", .none, true⟩,
      ⟨254, "impdep1", .none, true⟩,
      ⟨255, "impdep2", .none, true⟩]

end Bytecode.Catalog

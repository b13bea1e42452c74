import Furious.Data.Reflection

/-!
The generation of reflection code.

The compiler describes a component by the members that the host compiler reports, and emits code
that registers them, one nested block for each member.

* `RecordDecl`, `Members`: a declaration;
* `getReflectionData`: its description;
* `Code`: the emitted code, and `generateReflectionCode`: the emission;
* `Members.find`, `Members.resolve`: which member a path of names leads to;
* `Code.exec`: the emitted code is run.

Paths are lists of names, not their texts with dots between. A description at compile time is a
value: each record in it has its own fields. What the emitted code does with a pointer that has no
value yet is not described, and no more is what a string builder does with a text that is longer than
its first buffer, which is formatted a second time with arguments that have been used up.
-/

namespace Furious

/-! ### Declarations -/

/-- The types of members that have no members of their own, as the host compiler tells them apart; sizes
are in bytes. Of one byte, `signed` and `unsigned` are `signed char` and `unsigned char`; an enumeration
without a scope counts as its integer type. -/
inductive ScalarType where
  | bool
  | char
  | signed (numBytes : ℕ)
  | unsigned (numBytes : ℕ)
  | enumeration (isSigned : Bool) (numBytes : ℕ)
  | floating (numBytes : ℕ)
  | pointer (toChar : Bool)
  | other
deriving DecidableEq, Repr

/-- The members of a record, one after the other, with their offsets in it; those of a nested record in
front of those that follow. -/
inductive Members where
  | nil
  | scalar (name : CString) (offset : ℕ) (type : ScalarType) (rest : Members)
  | record (name : CString) (anonymous : Bool) (offset : ℕ) (typeName : CString) (isUnion : Bool)
      (members rest : Members)

/-- The declaration of a component. -/
structure RecordDecl where
  name : CString
  isUnion : Bool
  members : Members

/-! ### Descriptions -/

/-- `FCC_MAX_TYPE_NAME`. -/
abbrev maxTypeName : ℕ := maxTableName

/-- `std::string`. -/
def stdStringName : CString := ⟨[115, 116, 100, 58, 58, 115, 116, 114, 105, 110, 103], by decide⟩

/-- `isCharType` of the host compiler: the characters, with a sign or without. -/
def ScalarType.isCharType : ScalarType → Bool
  | char => true
  | signed numBytes => numBytes == 1
  | unsigned numBytes => numBytes == 1
  | _ => false

/-- The kinds of signed integers. -/
def signedType : ℕ → MType
  | 1 => .int8
  | 2 => .int16
  | 4 => .int32
  | 8 => .int64
  | _ => .unknown

/-- The kinds of unsigned integers. -/
def unsignedType : ℕ → MType
  | 1 => .uint8
  | 2 => .uint16
  | 4 => .uint32
  | 8 => .uint64
  | _ => .unknown

/-- The kinds of floating point numbers. -/
def floatingType : ℕ → MType
  | 4 => .float
  | 8 => .double
  | _ => .unknown

/-- The type that `VisitCXXRecordDecl` finds for a field without members: every character is taken for one
before the integers are told apart. -/
def ScalarType.visit (type : ScalarType) : MType :=
  if type = .bool then .bool
  else if type.isCharType then .char
  else
    match type with
    | signed numBytes => signedType numBytes
    | enumeration true numBytes => signedType numBytes
    | unsigned numBytes => unsignedType numBytes
    | enumeration false numBytes => unsignedType numBytes
    | floating numBytes => floatingType numBytes
    | pointer _ => .charPointer
    | _ => .unknown

/-- The type that `VisitCXXRecordDecl` finds for a record. -/
def visitRecord (typeName : CString) (isUnion : Bool) : MType :=
  if typeName = stdStringName then .stdString
  else if !isUnion then .union
  else .struct

/-- `-1` as a `size_t`, the offset of a field at compile time. -/
abbrev noOffset : ℕ := 2 ^ 64 - 1

/-- The loop of `VisitCXXRecordDecl` over the fields of a record, `nfields` of which have been visited;
for a field with members `fdb_mregistry_init_mfield` returns a description, which is visited next. -/
def Members.visit (nfields : ℕ) : Members → Option MFields
  | nil => some .nil
  | scalar name _ type rest =>
      if name.strlen < maxFieldName ∧ nfields < maxComponentFields then do
        let rest ← rest.visit (nfields + 1)
        some (.scalar name type.visit noOffset false rest)
      else none
  | record name anonymous _ typeName isUnion members rest =>
      if name.strlen < maxFieldName ∧ typeName.strlen < maxTypeName ∧ nfields < maxComponentFields then
        if (visitRecord typeName isUnion).isRecord then do
          let members ← members.visit 0
          let rest ← rest.visit (nfields + 1)
          some (.record name (visitRecord typeName isUnion) noOffset anonymous members rest)
        else do
          let rest ← rest.visit (nfields + 1)
          some (.scalar name (visitRecord typeName isUnion) noOffset anonymous rest)
      else none

/-- The description of a component at compile time. -/
structure ReflData where
  typeName : CString
  isUnion : Bool
  fields : MFields

/-- `get_reflection_data`. -/
def getReflectionData (decl : RecordDecl) : Option ReflData :=
  if decl.name.strlen < maxTableName then do
    let fields ← decl.members.visit 0
    some ⟨decl.name, decl.isUnion, fields⟩
  else none

/-! ### Emission -/

/-- The offsets in the emitted code: `0`, `offsetof(root, path)` and
`offsetof(root, path) - offsetof(root, outer)`. -/
inductive OffsetExpr where
  | zero
  | offsetOf (path : List CString)
  | difference (path outer : List CString)

/-- The statements of the emitted code: the declarations of `field_name` with its text, of `type`, `is_anon`
and `offset`, and the calls of `fdb_mregistry_init_mstruct` and `fdb_mregistry_init_mfield`, whose
results may be named. -/
inductive EmittedStmt where
  | fieldName (name : CString)
  | type (type : MType)
  | isAnon (anonymous : Bool)
  | offset (expr : OffsetExpr)
  | initMstruct (var : List UInt8) (name : CString) (isUnion : Bool)
  | initMfield (var : Option (List UInt8)) (mstruct : List UInt8)

/-- The emitted code: statements and blocks. -/
inductive Code where
  | done
  | stmt (s : EmittedStmt) (next : Code)
  | block (body next : Code)

/-- `tolower`. -/
def tolower (str : List UInt8) : List UInt8 := str.map fun c => if 65 ≤ c ∧ c ≤ 90 then c + 32 else c

/-- `replace_special`: an underscore for each of `:<>,.` and the blank. -/
def replaceSpecial (str : List UInt8) : List UInt8 :=
  [58, 60, 62, 44, 46, 32].foldl (fun str special => str.map fun c => if c = special then 95 else c) str

/-- `sanitize_name`. -/
def sanitizeName (str : List UInt8) : List UInt8 := replaceSpecial (tolower str)

/-- The variable of a record, `ref_data_` and its name. -/
def refData (name : CString) : List UInt8 :=
  [114, 101, 102, 95, 100, 97, 116, 97, 95] ++ sanitizeName name.bytes

/-- The length of the text of a path. -/
def pathLength (path : List CString) : ℕ := (path.map CString.strlen).sum + (path.length - 1)

/-- A path in a string builder. -/
def strBuilder (path : List CString) : Option (List CString) :=
  if pathLength path < 2048 then some path else none

/-- The offset that is emitted for a field, and the path of its members. -/
def fieldOffset (name : CString) (anonymous : Bool) (path : List CString) :
    Option (OffsetExpr × List CString) :=
  if anonymous then do
    let path ← strBuilder path
    some (.zero, path)
  else if path = [] then do
    let path ← strBuilder [name]
    some (.offsetOf path, path)
  else do
    let inner ← strBuilder (path ++ [name])
    some (.difference inner path, inner)

/-- What the block of a field begins with. -/
def declareField (name : CString) (type : MType) (anonymous : Bool) (expr : OffsetExpr) (next : Code) : Code :=
  .stmt (.fieldName name) (.stmt (.type type) (.stmt (.isAnon anonymous) (.stmt (.offset expr) next)))

/-- `generate_reflection_code` for the fields of a record, which is in the variable `varName`. The fields with
a description of their own are those that the visitor has given one. -/
def generateFields : MFields → List CString → List UInt8 → Option Code
  | .nil, _, _ => some .done
  | .scalar name type _ anonymous rest, path, varName => do
      let (expr, _) ← fieldOffset name anonymous path
      let next ← generateFields rest path varName
      some (.block (declareField name type anonymous expr (.stmt (.initMfield none varName) .done)) next)
  | .record name type _ anonymous members rest, path, varName => do
      let (expr, inner) ← fieldOffset name anonymous path
      let body ← generateFields members inner (refData name)
      let next ← generateFields rest path varName
      some (.block (declareField name type anonymous expr
        (.stmt (.initMfield (some (refData name)) varName) (.block body .done))) next)

/-- `generate_reflection_code` for a declaration. -/
def generateReflectionCode (decl : RecordDecl) : Option Code := do
  let mstruct ← getReflectionData decl
  let body ← generateFields mstruct.fields [] (refData mstruct.typeName)
  some (.block (.stmt (.initMstruct (refData mstruct.typeName) mstruct.typeName mstruct.isUnion) body) .done)

/-! ### Members by name -/

namespace Members

/-- The member of a name, with its offset and its members; those of an anonymous record are members of
the record around it. -/
def find (name : CString) : Members → Option (ℕ × Members)
  | nil => none
  | scalar name' offset _ rest => if name' = name then some (offset, nil) else rest.find name
  | record name' anonymous offset _ _ members rest =>
      if anonymous then
        match members.find name with
        | some (o, inner) => some (offset + o, inner)
        | none => rest.find name
      else if name' = name then some (offset, members)
      else rest.find name

/-- Where a path leads to. -/
def resolve : Members → List CString → Option (ℕ × Members)
  | members, [] => some (0, members)
  | members, name :: path => do
      let (offset, inner) ← members.find name
      let (o, found) ← inner.resolve path
      some (offset + o, found)

end Members

/-! ### The emitted code is run -/

/-- The variables of a block; a variable for a description may have no value yet. -/
structure Scope where
  fieldName : Option CString
  type : Option MType
  isAnon : Option Bool
  offset : Option ℕ
  mstructs : List (List UInt8 × Option ℕ)

/-- The variables of a block that begins. -/
def Scope.empty : Scope := ⟨none, none, none, none, []⟩

/-- The description in a variable, that of the innermost block that declares it. -/
def mstructOf (env : List Scope) (var : List UInt8) : Option ℕ :=
  (env.findSome? fun scope => scope.mstructs.lookup var).join

/-- The value of an offset, a `uint32_t`. -/
def OffsetExpr.eval (decl : RecordDecl) : OffsetExpr → Option ℕ
  | zero => some 0
  | offsetOf path => do
      let (o, _) ← decl.members.resolve path
      some (o % 2 ^ 32)
  | difference path outer => do
      let (o, _) ← decl.members.resolve path
      let (o', _) ← decl.members.resolve outer
      some ((o + (2 ^ 64 - o' % 2 ^ 64)) % 2 ^ 64 % 2 ^ 32)

/-- A statement; the variables of a block are declared once. A variable is visible from its own
initialisation on, and has no value there. -/
def EmittedStmt.exec (decl : RecordDecl) (scope : Scope) (env : List Scope) (reg : MRegistry) :
    EmittedStmt → Option (Scope × MRegistry)
  | fieldName name => if scope.fieldName = none then some ({ scope with fieldName := some name }, reg) else none
  | type t => if scope.type = none then some ({ scope with type := some t }, reg) else none
  | isAnon a => if scope.isAnon = none then some ({ scope with isAnon := some a }, reg) else none
  | offset expr =>
      if scope.offset = none then do
        let o ← expr.eval decl
        some ({ scope with offset := some o }, reg)
      else none
  | initMstruct var name isUnion =>
      if scope.mstructs.lookup var = none then do
        let (p, reg) ← reg.initMstruct name isUnion
        some ({ scope with mstructs := (var, some p) :: scope.mstructs }, reg)
      else none
  | initMfield var mstruct => do
      let declared ←
        match var with
        | none => some scope
        | some var =>
            if scope.mstructs.lookup var = none then
              some { scope with mstructs := (var, none) :: scope.mstructs }
            else none
      let p ← mstructOf (declared :: env) mstruct
      let fieldName ← (scope :: env).findSome? Scope.fieldName
      let type ← (scope :: env).findSome? Scope.type
      let offset ← (scope :: env).findSome? Scope.offset
      let isAnon ← (scope :: env).findSome? Scope.isAnon
      let (result, reg) ← reg.initMfield p fieldName type offset isAnon
      match var with
      | none => some (scope, reg)
      | some var => some ({ scope with mstructs := (var, result) :: scope.mstructs }, reg)

/-- Code, in the innermost of some blocks. -/
def Code.exec (decl : RecordDecl) : Code → Scope → List Scope → MRegistry → Option MRegistry
  | done, _, _, reg => some reg
  | stmt s next, scope, env, reg => do
      let (scope, reg) ← s.exec decl scope env reg
      next.exec decl scope env reg
  | block body next, scope, env, reg => do
      let reg ← body.exec decl Scope.empty (scope :: env) reg
      next.exec decl scope env reg

/-- The code that is generated for a declaration is run with a registry. -/
def registerDecl (decl : RecordDecl) (reg : MRegistry) : Option MRegistry := do
  let code ← generateReflectionCode decl
  code.exec decl Scope.empty [] reg

end Furious

import Jaek.Typechecker.Context

/-!
# The context of a file

`Kompiler.kt`. A file starts with a context that holds the records of its own definitions and what the
interfaces it uses declare. The context is one object that every step writes to, so it is part of the
state. Errors are their messages.
-/

namespace Jaek

open AST

/-- `OrdinaryType.toString`. -/
def OrdinaryType.text : OrdinaryType → String
  | arrayType t => t.text ++ "array"
  | boolType => "bool"
  | intType => "int"
  | unknownType _ => "unk"
  | nullType => "null"
  | recordType t => t

/-- The interface files at the library path, and what parsing them gives. -/
structure Library where
  eti : LinkedMap String (Except String Interface)
  ri : LinkedMap String (Except String Interface)

/-- A source file, by its name and its extension. -/
structure SourceFile where
  nameWithoutExtension : String
  extension : String

/-- The fields of `Kompiler` that loading reads and writes. -/
structure Kompiler where
  libraries : LinkedMap String Interface
  moduleRecords : LinkedMap String RecordType
  returnGamma : Context

namespace Kompiler

/-- The compiler at the start. -/
def init : Kompiler := ⟨.empty, .empty, .init⟩

/-- The fields of a record. A repeated name keeps its first place and takes its last type. -/
def fieldMap (record : RhoRecord) : LinkedMap String OrdinaryType :=
  record.fields.foldl (fun fieldMap decl =>
    decl.ids.foldl (fun fieldMap id => fieldMap.insert id (translateType decl.type)) fieldMap) .empty

/-- Every field of the header is a field of the record, with an equal type. -/
def checkRecordSubtyping (header : RhoRecord) (recordtype : RecordType) : Except String Unit :=
  header.fields.forM fun field => field.ids.forM fun identifier =>
    match recordtype.fields.get? identifier with
    | none =>
      throw s!"{identifier} is not defined in record {recordtype.name} in Rho Module"
    | some recordFieldType =>
      let headerFieldType := translateType field.type
      if headerFieldType.equals recordFieldType then pure ()
      else
        throw (s!"{identifier} is defined as {headerFieldType.text} in header but " ++
          s!"{recordFieldType.text} in record {recordtype.name} in Rho Module")

/-- The header and the record have the same fields, with equal types. -/
def checkRecordExact (header : RhoRecord) (recordtype : RecordType) : Except String Unit := do
  header.fields.forM fun field => field.ids.forM fun identifier =>
    match recordtype.fields.get? identifier with
    | none =>
      throw s!"{identifier} is not defined in record {recordtype.name} in Rho Module"
    | some recordFieldType =>
      if (translateType field.type).equals recordFieldType then pure ()
      else throw "Conflicting record types in Interfaces"
  recordtype.fields.keys.forM fun field =>
    if header.fields.any fun headerField => headerField.ids.any fun identifier => identifier = field
    then pure ()
    else throw "Conflicting record types in Interfaces"

/-- The header of a method: it is bound, or has to agree with what is. -/
def bindInterfaceMethod (header : Method Unit) (returnGamma : Context) : Except String Context :=
  let domainList := header.args.map fun decl => translateType decl.type
  let codomainList := header.returnTypes.map translateType
  let currFunType : FunType := ⟨domainList, codomainList, true⟩
  match returnGamma.lookup header.id with
  | some existing =>
    if existing.equalsFun currFunType then pure returnGamma
    else throw s!"Mismatch in type of function {header.id} among interfaces"
  | none => pure (returnGamma.bind header.id (.funType currFunType))

/-- The header of a record: it is bound, or has to agree with what is. -/
def bindInterfaceRecord (moduleRecords : LinkedMap String RecordType) (header : RhoRecord)
    (returnGamma : Context) : Except String Context :=
  match returnGamma.lookup header.name with
  | some (.recordType existingRecordType) => do
    -- a record of the module may have more fields than the interface shows
    let check := if (moduleRecords.get? header.name).isSome then checkRecordSubtyping
      else checkRecordExact
    check header existingRecordType
    pure returnGamma
  | some _ => throw "Conflicting record definition in Interface"
  | none => pure (returnGamma.bind header.name (.recordType ⟨header.name, fieldMap header⟩))

/-- A header of either kind. -/
def bindInterfaceDefinition (moduleRecords : LinkedMap String RecordType) (returnGamma : Context) :
    Definition Unit → Except String Context
  | .method header => bindInterfaceMethod header returnGamma
  | .rhoRecord header => bindInterfaceRecord moduleRecords header returnGamma
  | .globalDecl _ => pure returnGamma

/-- The headers of an interface. -/
def bindInterfaceDefinitions (interfaceAST : Interface) (k : Kompiler) : Except String Kompiler := do
  let returnGamma ← interfaceAST.headers.foldlM (bindInterfaceDefinition k.moduleRecords)
    k.returnGamma
  pure { k with returnGamma }

/-- `checkAndLoadInterface`. -/
def checkAndLoadInterface (inFile : SourceFile) (interfaceAST : Interface) (lib : String)
    (k : Kompiler) : Except String Kompiler :=
  match interfaceAST with
  | .rhoInterface _ _ =>
    if inFile.extension = "eta" then throw "Rho interface used by eta file"
    else bindInterfaceDefinitions interfaceAST { k with libraries := k.libraries.insert lib interfaceAST }
  | .etaInterface _ =>
    bindInterfaceDefinitions interfaceAST { k with libraries := k.libraries.insert lib interfaceAST }

/-- `libraries[import.lib] ?: tryGetAst(path)`. -/
def getAst (k : Kompiler) (lib : String) (file : Except String Interface) :
    Except String Interface :=
  match k.libraries.get? lib with
  | some interfaceAST => pure interfaceAST
  | none => file

/-- Load one library from a file that exists. -/
def load (inFile : SourceFile) (lib : String) (file : Except String Interface) (k : Kompiler) :
    Except String (Interface × Kompiler) := do
  let interfaceAST ← k.getAst lib file
  let k ← k.checkAndLoadInterface inFile interfaceAST lib
  pure (interfaceAST, k)

/-- The files of the library that the loop over the dependencies has not seen. -/
def unseen (L : Library) (seenImports : List String) : ℕ :=
  (L.eti.keys.filter fun lib => lib ++ ".eti" ∉ seenImports).length +
    (L.ri.keys.filter fun lib => lib ++ ".ri" ∉ seenImports).length

/-- A stricter test that leaves out an element keeps fewer. -/
theorem length_filter_lt {p q : String → Bool} {xs : List String} {x : String} (hx : x ∈ xs)
    (himp : ∀ y, q y = true → p y = true) (hp : p x = true) (hq : q x = false) :
    (xs.filter q).length < (xs.filter p).length := by
  have heq : xs.filter q = (xs.filter p).filter q := by
    rw [List.filter_filter]
    exact List.filter_congr fun y _ => by cases hqy : q y <;> simp_all
  rw [heq, List.length_filter_lt_length_iff_exists]
  exact ⟨x, List.mem_filter.mpr ⟨hx, hp⟩, by rw [hq]; exact Bool.false_ne_true⟩

/-- A stricter test keeps no more. -/
theorem length_filter_le {p q : String → Bool} {xs : List String}
    (himp : ∀ y, q y = true → p y = true) : (xs.filter q).length ≤ (xs.filter p).length :=
  (List.monotone_filter_right xs himp).length_le

/-- A library that is read has one file less to be seen. -/
theorem unseen_lt {L : Library} {seenImports : List String} {lib : String}
    (heti : lib ++ ".eti" ∉ seenImports) (hri : lib ++ ".ri" ∉ seenImports)
    (hfile : (L.eti.get? lib).isSome ∨ (L.ri.get? lib).isSome) :
    unseen L (seenImports ++ (L.eti.get? lib).toList.map (fun _ => lib ++ ".eti") ++
      (L.ri.get? lib).toList.map (fun _ => lib ++ ".ri")) < unseen L seenImports := by
  have hmono : ∀ ext : String, ∀ y : String,
      decide (y ++ ext ∉ seenImports ++ (L.eti.get? lib).toList.map (fun _ => lib ++ ".eti") ++
        (L.ri.get? lib).toList.map (fun _ => lib ++ ".ri")) = true →
      decide (y ++ ext ∉ seenImports) = true := by
    intro ext y hy
    simp only [List.append_assoc, List.mem_append, not_or, decide_eq_true_eq] at hy ⊢
    exact hy.1
  rcases hfile with hsome | hsome
  · refine add_lt_add_of_lt_of_le ?_ (length_filter_le (hmono _))
    refine length_filter_lt ((LinkedMap.mem_keys_iff _).mpr hsome) (hmono _) (by simpa using heti) ?_
    obtain ⟨file, hfile⟩ := Option.isSome_iff_exists.mp hsome
    simp [hfile]
  · refine add_lt_add_of_le_of_lt (length_filter_le (hmono _)) ?_
    refine length_filter_lt ((LinkedMap.mem_keys_iff _).mpr hsome) (hmono _) (by simpa using hri) ?_
    obtain ⟨file, hfile⟩ := Option.isSome_iff_exists.mp hsome
    simp [hfile]

/-- Load the `.eti` file of a library, if it exists. -/
def loadEti (L : Library) (inFile : SourceFile) (lib : String) (k : Kompiler) :
    Except String Kompiler :=
  match L.eti.get? lib with
  | some etapath => do
    let (_, k) ← k.load inFile lib etapath
    pure k
  | none => pure k

/-- Load the `.ri` file of a library, if it exists. Also gives the libraries it uses. -/
def loadRi (L : Library) (inFile : SourceFile) (lib : String) (k : Kompiler) :
    Except String (List String × Kompiler) :=
  match L.ri.get? lib with
  | some rhopath => do
    let (interfaceAST, k) ← k.load inFile lib rhopath
    match interfaceAST with
    | .rhoInterface imports _ => pure (imports, k)
    | .etaInterface _ => pure ([], k)
  | none => pure ([], k)

/-- The files of a library, the `.eti` file first. -/
def loadFiles (L : Library) (inFile : SourceFile) (lib : String) (k : Kompiler) :
    Except String (List String × Kompiler) := do
  let k ← loadEti L inFile lib k
  loadRi L inFile lib k

/-- The loop of `loadRhoInterfaceDependencies`. A library without files is passed over. -/
def loadRemaining (L : Library) (inFile : SourceFile) (remainingUses seenImports : List String)
    (k : Kompiler) : Except String Kompiler :=
  match remainingUses with
  | [] => pure k
  | lib :: remainingUses =>
    if _ : lib ++ ".eti" ∈ seenImports ∨ lib ++ ".ri" ∈ seenImports then
      loadRemaining L inFile remainingUses seenImports k
    else if _ : (L.eti.get? lib).isSome ∨ (L.ri.get? lib).isSome then do
      let (imports, k) ← loadFiles L inFile lib k
      loadRemaining L inFile (remainingUses ++ imports)
        (seenImports ++ (L.eti.get? lib).toList.map (fun _ => lib ++ ".eti") ++
          (L.ri.get? lib).toList.map (fun _ => lib ++ ".ri")) k
    else loadRemaining L inFile remainingUses seenImports k
termination_by (unseen L seenImports, remainingUses.length)
decreasing_by
  · exact Prod.Lex.right _ (Nat.lt_succ_self _)
  · rename_i hseen hfile
    exact Prod.Lex.left _ _ (unseen_lt (fun h => hseen (.inl h)) (fun h => hseen (.inr h)) hfile)
  · exact Prod.Lex.right _ (Nat.lt_succ_self _)

/-- The interface of the file itself counts as seen. -/
def loadRhoInterfaceDependencies (L : Library) (inFile : SourceFile) (imports : List String)
    (k : Kompiler) : Except String Kompiler :=
  loadRemaining L inFile imports [inFile.nameWithoutExtension ++ ".ri"] k

/-- Load the records of a module. -/
def loadRecord (k : Kompiler) (definition : RhoRecord) : Except String Kompiler :=
  if (k.returnGamma.recordTypes.get? definition.name).isSome then
    throw s!"Redeclared record type {definition.name}"
  else
    let recordType : RecordType := ⟨definition.name, fieldMap definition⟩
    pure { k with
      returnGamma := k.returnGamma.bind definition.name (.recordType recordType)
      moduleRecords := k.moduleRecords.insert definition.name recordType }

/-- The records of the module itself. -/
def loadRecords (definitions : List (Definition Unit)) (k : Kompiler) : Except String Kompiler :=
  definitions.foldlM (fun k definition =>
    match definition with
    | .rhoRecord definition => k.loadRecord definition
    | _ => pure k) k

/-- Check one header of a module's own interface. -/
def checkHeader (definitions : List (Definition Unit)) (k : Kompiler) :
    Definition Unit → Except String Kompiler
  | .method header => do
    let defs := definitions.filter fun definition =>
      match definition with
      | .method m => m.id = header.id
      | _ => false
    if defs.isEmpty then throw s!"Definition {header.id} not found in Rho Module"
    else
      let returnGamma ← defs.foldlM (fun returnGamma _ => bindInterfaceMethod header returnGamma)
        k.returnGamma
      pure { k with returnGamma }
  | .rhoRecord header =>
    match k.returnGamma.lookup header.name with
    | some (.recordType recordDefinition) => do
      checkRecordSubtyping header recordDefinition
      pure k
    | some _ => throw s!"Definition {header.name} is not a record type in Rho Module"
    | none => throw s!"Definition {header.name} in Interface but not found in Rho Module"
  | .globalDecl _ => throw "Invalid header type"

/-- Load what a file uses, one library after the other. -/
def loadImport (L : Library) (inFile : SourceFile) (imports : List String) (k : Kompiler)
    (lib : String) : Except String Kompiler :=
  match L.eti.get? lib with
  | some etaPath => do
    let (_, k) ← k.load inFile lib etaPath
    pure k
  | none =>
    match L.ri.get? lib with
    | some rhoPath => do
      let (_, k) ← k.load inFile lib rhoPath
      loadRhoInterfaceDependencies L inFile imports k
    | none => throw s!"Could not find interface {lib} as .eti or .ri file"

/-- Check a module against its own interface, if there is one. Gives the libraries the interface uses. -/
def checkOwnInterface (L : Library) (inFile : SourceFile) (definitions : List (Definition Unit))
    (k : Kompiler) : Except String (List String × Kompiler) :=
  match L.ri.get? inFile.nameWithoutExtension with
  | none => pure ([], k)
  | some thisFilePath => do
    let interfaceAST ← k.getAst inFile.nameWithoutExtension thisFilePath
    match interfaceAST with
    | .rhoInterface imports headers => do
      let k ← headers.foldlM (checkHeader definitions) k
      pure (imports, k)
    | .etaInterface _ => throw s!"{inFile.nameWithoutExtension}.ri is not a rho interface"

/-- `createTopLevelContext` of a program file. -/
def createTopLevelContext (L : Library) (inFile : SourceFile) :
    Program Unit → Except String Kompiler
  | .etaProgram imports _ =>
    imports.foldlM (fun k lib =>
      match L.eti.get? lib with
      | some importPath => do
        let (_, k) ← k.load inFile lib importPath
        pure k
      | none => throw s!"Could not find interface {lib} file") init
  | .rhoModule imports definitions => do
    let k ← init.loadRecords definitions
    let (interfaceImports, k) ← checkOwnInterface L inFile definitions k
    let imports := imports ++ interfaceImports
    imports.foldlM (loadImport L inFile imports) k

end Kompiler

end Jaek
